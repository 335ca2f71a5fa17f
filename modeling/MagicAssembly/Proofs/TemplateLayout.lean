import MagicAssembly.Template.Grammar
import MagicAssembly.Proofs.FieldCodec

namespace MagicAssembly.Template

/-- All bits that some field of the list reads. -/
def fieldsMask (fs : List Field) : Word :=
  fs.foldr (fun f bits => f.mask ||| bits) 0

@[simp] theorem fieldsMask_nil : fieldsMask [] = 0 := rfl

@[simp] theorem fieldsMask_cons (f : Field) (fs : List Field) :
    fieldsMask (f :: fs) = f.mask ||| fieldsMask fs := rfl

/-- The template accounts for the lowest `n` bits, each of them once: as a fixed bit or as a bit of
one field. Earlier fields lie above later ones. -/
structure Fills (t : Template) (n : Nat) : Prop where
  bits_inside : t.fixedBits &&& ~~~t.fixedMask = 0
  apart : ∀ f ∈ t.fields, t.fixedMask &&& f.mask = 0
  descending : t.fields.Pairwise fun f g => g.shift + g.width ≤ f.shift
  cover : t.fixedMask ||| fieldsMask t.fields = Word.low n
  within : ∀ f ∈ t.fields, 0 < f.width ∧ f.shift + f.width ≤ n
  keeps : ∀ f ∈ t.fields, f.KeepsBits

theorem Fills.fixedMask_low {t : Template} {n : Nat} (h : t.Fills n) :
    t.fixedMask &&& ~~~Word.low n = 0 := by
  rw [← h.cover]
  simp only [Word.bits_iff, BitVec.getLsbD_and, BitVec.getLsbD_or, BitVec.getLsbD_not]
  grind

/-- Fields that lie one above the other share no bit. -/
theorem Fills.masks_disjoint {t : Template} {n : Nat} (h : t.Fills n) :
    t.fields.Pairwise fun f g => f.mask &&& g.mask = 0 := by
  apply h.descending.imp
  intro f g hfg
  simp only [Word.bits_iff, BitVec.getLsbD_and, Field.getLsbD_mask]
  grind

theorem Fills.ordered {t : Template} {n : Nat} (h : t.Fills n) :
    t.fields.Pairwise fun f g => g.shift < f.shift := by
  apply h.descending.imp_of_mem
  intro f g _ hg hfg
  have hpos := (h.within g hg).1
  omega

theorem Fills.bit {t : Template} {n : Nat} (h : t.Fills n) (value : Bool) (hn : n < 32) :
    Fills { t with
      fixedMask := t.fixedMask ||| (1 : Word) <<< n
      fixedBits := if value then t.fixedBits ||| (1 : Word) <<< n else t.fixedBits } (n + 1) := by
  have hone := Word.getLsbD_one_shiftLeft hn
  have hcover := h.cover
  refine ⟨?_, ?_, h.descending, ?_, ?_, h.keeps⟩
  · cases value with
    | false =>
      have hnone : (0 : Word) &&& ~~~((1 : Word) <<< n) = 0 := BitVec.zero_and
      simpa using Word.or_inside h.bits_inside hnone
    | true => exact Word.or_inside h.bits_inside (BitVec.and_not_self _)
  · intro f hf
    apply Word.or_apart (h.apart f hf)
    have hw := (h.within f hf).2
    simp only [Word.bits_iff, BitVec.getLsbD_and, Field.getLsbD_mask]
    grind
  · simp only [Word.bits_iff, BitVec.getLsbD_or, Word.getLsbD_low] at hcover ⊢
    grind
  · intro f hf
    obtain ⟨hpos, htop⟩ := h.within f hf
    exact ⟨hpos, Nat.le_succ_of_le htop⟩

theorem Fills.field {t : Template} {n : Nat} (h : t.Fills n) {kind : FieldKind} {width : Nat}
    (hw : 0 < width) (hk : (⟨kind, n, width⟩ : Field).KeepsBits) :
    Fills { t with fields := ⟨kind, n, width⟩ :: t.fields } (width + n) := by
  have hcover := h.cover
  have hmask := h.fixedMask_low
  refine ⟨h.bits_inside, ?_, ?_, ?_, ?_, ?_⟩
  · intro f hf
    rcases List.mem_cons.mp hf with rfl | hf
    · simp only [Word.bits_iff, BitVec.getLsbD_and, BitVec.getLsbD_not, Word.getLsbD_low,
        Field.getLsbD_mask] at hmask ⊢
      grind
    · exact h.apart f hf
  · exact List.pairwise_cons.mpr ⟨fun f hf => (h.within f hf).2, h.descending⟩
  · simp only [Word.bits_iff, fieldsMask_cons, BitVec.getLsbD_or, Word.getLsbD_low,
      Field.getLsbD_mask] at hcover ⊢
    grind
  · intro f hf
    rcases List.mem_cons.mp hf with rfl | hf
    · exact ⟨hw, by simp [Nat.add_comm]⟩
    · obtain ⟨hpos, htop⟩ := h.within f hf
      exact ⟨hpos, by omega⟩
  · intro f hf
    rcases List.mem_cons.mp hf with rfl | hf
    · exact hk
    · exact h.keeps f hf

end MagicAssembly.Template

namespace MagicAssembly

/-- A field has at least one bit, and its kind reads all of them. -/
def Segment.Sound : Segment → Prop
  | .bit _ => True
  | .field kind width => 0 < width ∧ ∀ shift, (⟨kind, shift, width⟩ : Field).KeepsBits

/-- The widths that the grammar gives to fields of a kind. -/
def FieldKind.Declares (width : Nat) : FieldKind → Prop
  | .register => 0 < width
  | .immediate | .branchOffset => width = immediateFieldBits
  | .jumpAddress => width = jumpFieldBits

def Segment.Declared : Segment → Prop
  | .bit _ => True
  | .field kind width => kind.Declares width

theorem Segment.Declared.sound {s : Segment} (h : s.Declared) : s.Sound := by
  cases s with
  | bit value => trivial
  | field kind width =>
    cases kind with
    | register => exact ⟨h, fun _ => trivial⟩
    | immediate | branchOffset | jumpAddress =>
      obtain rfl : width = _ := h
      exact ⟨by decide, fun _ => Nat.le_refl _⟩

namespace Template

theorem ofSegments_fills {ss : List Segment} (hs : ∀ s ∈ ss, s.Sound) (hw : totalWidth ss ≤ 32) :
    (ofSegments ss).Fills (totalWidth ss) := by
  induction ss with
  | nil => exact ⟨rfl, by simp [ofSegments], .nil, rfl, by simp [ofSegments], by simp [ofSegments]⟩
  | cons s ss ih =>
    have htotal : totalWidth (s :: ss) = s.width + totalWidth ss := rfl
    rw [htotal] at hw ⊢
    have hrest := ih (fun s' hm => hs s' (List.mem_cons_of_mem _ hm)) (by omega)
    cases s with
    | bit value =>
      simp only [Segment.width] at hw ⊢
      rw [Nat.add_comm]
      exact hrest.bit value (by omega)
    | field kind width =>
      obtain ⟨hpos, hkeeps⟩ := hs _ List.mem_cons_self
      exact hrest.field hpos (hkeeps _)

theorem segment_of_mem_fields {ss : List Segment} {f : Field} (hf : f ∈ (ofSegments ss).fields) :
    .field f.kind f.width ∈ ss := by
  induction ss with
  | nil => simp [ofSegments] at hf
  | cons s ss ih =>
    cases s with
    | bit value => exact List.mem_cons_of_mem _ (ih hf)
    | field kind width =>
      rcases List.mem_cons.mp hf with rfl | hf
      · exact List.mem_cons_self
      · exact List.mem_cons_of_mem _ (ih hf)

/-- The runs that there can be while a group is read. -/
def IsRun : Option (Char × Nat) → Prop
  | none => True
  | some (letter, width) => isLetter letter ∧ 0 < width

/-- A digit ends the run before it, a letter makes it longer or begins another. -/
theorem scan_cons_eq_some {r : Option (Char × Nat)} {c : Char} {cs : List Char}
    {ss : List Segment} (h : scan r (c :: cs) = some ss) :
    ((c = '0' ∨ c = '1') ∧
      ∃ ss', scan none cs = some ss' ∧ ss = flush r ++ .bit (c = '1') :: ss') ∨
    (isLetter c ∧ ∃ width, r = some (c, width) ∧ scan (some (c, width + 1)) cs = some ss) ∨
    (isLetter c ∧ (∀ width, r ≠ some (c, width)) ∧
      ∃ ss', scan (some (c, 1)) cs = some ss' ∧ ss = flush r ++ ss') := by
  rw [scan.eq_def] at h
  dsimp only at h
  split at h
  · next hbit =>
    obtain ⟨ss', hss, rfl⟩ := Option.map_eq_some_iff.mp h
    exact .inl ⟨hbit, ss', hss, rfl⟩
  split at h
  · next hletter =>
    split at h
    · next letter width =>
      split at h
      · next hsame =>
        subst hsame
        exact .inr (.inl ⟨hletter, width, rfl, h⟩)
      · next hother =>
        obtain ⟨ss', hss, rfl⟩ := Option.map_eq_some_iff.mp h
        refine .inr (.inr ⟨hletter, ?_, ss', hss, rfl⟩)
        intro width' hrun
        cases hrun
        exact hother rfl
    · exact .inr (.inr ⟨hletter, by simp, ss, h, rfl⟩)
  · cases h

theorem flush_declared {r : Option (Char × Nat)} (hrun : IsRun r) :
    ∀ s ∈ flush r, s.Declared := by
  intro s hs
  cases r with
  | none => cases hs
  | some r =>
    obtain rfl := List.mem_singleton.mp hs
    exact hrun.2

theorem scan_declared {r : Option (Char × Nat)} {group : List Char} {ss : List Segment}
    (hrun : IsRun r) (h : scan r group = some ss) : ∀ s ∈ ss, s.Declared := by
  induction group generalizing r ss with
  | nil =>
    cases h
    exact flush_declared hrun
  | cons c cs ih =>
    obtain ⟨_, ss', hss, rfl⟩ | ⟨hc, width, rfl, hss⟩ | ⟨hc, _, ss', hss, rfl⟩ :=
      scan_cons_eq_some h
    · have hrest := ih (r := none) trivial hss
      exact List.forall_mem_append.mpr
        ⟨flush_declared hrun, List.forall_mem_cons.mpr ⟨trivial, hrest⟩⟩
    · exact ih (r := some (c, width + 1)) ⟨hc, Nat.succ_pos width⟩ hss
    · have hrest := ih (r := some (c, 1)) ⟨hc, Nat.one_pos⟩ hss
      exact List.forall_mem_append.mpr ⟨flush_declared hrun, hrest⟩

theorem groupSegments_declared {group : List Char} {ss : List Segment}
    (h : groupSegments? group = some ss) : ∀ s ∈ ss, s.Declared := by
  have hnamed (kind : FieldKind) (width : Nat) (hd : kind.Declares width) :
      ∀ s ∈ [Segment.field kind width], s.Declared := by
    intro s hs
    obtain rfl := List.mem_singleton.mp hs
    exact hd
  unfold groupSegments? at h
  split at h
  · obtain rfl := Option.some.inj h
    exact hnamed _ _ rfl
  split at h
  · obtain rfl := Option.some.inj h
    exact hnamed _ _ rfl
  split at h
  · obtain rfl := Option.some.inj h
    exact hnamed _ _ rfl
  exact scan_declared (r := none) trivial h

theorem segments_declared {groups : List (List Char)} {ss : List Segment}
    (h : segments groups = .ok ss) : ∀ s ∈ ss, s.Declared := by
  induction groups generalizing ss with
  | nil =>
    cases h
    simp
  | cons group groups ih =>
    simp only [segments] at h
    split at h
    · cases h
    · next first hfirst =>
      cases hrest : segments groups with
      | error e => simp [hrest, Except.map] at h
      | ok rest =>
        simp only [hrest, Except.map, Except.ok.injEq] at h
        subst h
        intro s hs
        rcases List.mem_append.mp hs with hs | hs
        · exact groupSegments_declared hfirst s hs
        · exact ih hrest s hs

theorem parse_eq_ok {text : String} {t : Template} (h : parse text = .ok t) :
    ∃ ss, segments (groups text) = .ok ss ∧ totalWidth ss = 32 ∧ t = ofSegments ss := by
  unfold parse at h
  split at h
  · cases h
  · next ss hss =>
    split at h
    · next hwidth =>
      cases h
      exact ⟨ss, hss, hwidth, rfl⟩
    · cases h

/-- Text that the grammar accepts gives every bit of the word one meaning. -/
theorem fills_of_parse {text : String} {t : Template} (h : parse text = .ok t) : t.Fills 32 := by
  obtain ⟨ss, hss, hwidth, rfl⟩ := parse_eq_ok h
  have hsound : ∀ s ∈ ss, s.Sound := fun s hs => (segments_declared hss s hs).sound
  exact hwidth ▸ ofSegments_fills hsound (Nat.le_of_eq hwidth)

theorem declares_of_parse {text : String} {t : Template} (h : parse text = .ok t) :
    ∀ f ∈ t.fields, f.kind.Declares f.width := by
  obtain ⟨ss, hss, _, rfl⟩ := parse_eq_ok h
  intro f hf
  exact segments_declared hss _ (segment_of_mem_fields hf)

end Template

end MagicAssembly
