import Mathlib.Data.List.Sort
import MagicAssembly.Catalog.Definition
import MagicAssembly.Proofs.TemplateCells

namespace MagicAssembly

namespace Template

/-- The cell of a bit. The row ends with the cell of bit 0. -/
def cellAt? (cells : List Cell) (bit : Nat) : Option Cell :=
  cells.reverse[bit]?

section Row

variable {cells : List Cell} {c d : Cell} {width i : Nat}

theorem cellAt_of_ge (h : cells.length ≤ i) : cellAt? cells i = none :=
  List.getElem?_eq_none (by rwa [List.length_reverse])

theorem lt_of_cellAt (h : cellAt? cells i = some c) : i < cells.length := by
  obtain ⟨hlt, _⟩ := List.getElem?_eq_some_iff.mp h
  rwa [List.length_reverse] at hlt

theorem cellAt_below (h : i < cells.length) :
    cellAt? (List.replicate width c ++ cells) i = cellAt? cells i := by
  rw [cellAt?, cellAt?, List.reverse_append,
    List.getElem?_append_left (by rwa [List.length_reverse])]

theorem cellAt_row (h : cells.length ≤ i) (hi : i < cells.length + width) :
    cellAt? (List.replicate width c ++ cells) i = some c := by
  rw [cellAt?, List.reverse_append, List.getElem?_append_right (by rwa [List.length_reverse]),
    List.reverse_replicate, List.length_reverse]
  exact List.getElem?_replicate_of_lt (by omega)

theorem cellAt_beyond (h : cells.length + width ≤ i) :
    cellAt? (List.replicate width c ++ cells) i = none :=
  cellAt_of_ge (by rwa [List.length_append, List.length_replicate, Nat.add_comm])

theorem eq_of_cellAt (h : cellAt? (List.replicate width c ++ cells) i = some d)
    (hi : cells.length ≤ i) : d = c := by
  have hlt := lt_of_cellAt h
  rw [List.length_append, List.length_replicate, Nat.add_comm] at hlt
  rw [cellAt_row hi hlt] at h
  exact (Option.some.inj h).symm

theorem cellAt_top (h : i + 1 = cells.length) : cellAt? cells i = cells.head? := by
  rw [cellAt?, List.getElem?_reverse' (j := 0) (by omega), List.head?_eq_getElem?]

end Row

/-- The field covers equal cells, and the cells next to them are others. -/
structure Covers (f : Field) (cells : List Cell) (c : Cell) : Prop where
  kind : c.mark.kind? = some f.kind
  pos : 0 < f.width
  row : ∀ i, f.shift ≤ i → i < f.shift + f.width → cellAt? cells i = some c
  above : cellAt? cells (f.shift + f.width) ≠ some c
  below : ∀ i, i + 1 = f.shift → cellAt? cells i ≠ some c

namespace Covers

variable {f : Field} {cells : List Cell} {c d : Cell} {width : Nat}

theorem within (h : Covers f cells c) : f.shift + f.width ≤ cells.length := by
  have hpos := h.pos
  have hlt := lt_of_cellAt (h.row (f.shift + f.width - 1) (by omega) (by omega))
  omega

theorem row_append {kind : FieldKind} (hkind : c.mark.kind? = some kind) (hpos : 0 < width)
    (hends : cells.head? ≠ some c) :
    Covers ⟨kind, cells.length, width⟩ (List.replicate width c ++ cells) c where
  kind := hkind
  pos := hpos
  row _ hi hi' := cellAt_row hi hi'
  above := by simp [cellAt_beyond]
  below i hi := by
    have hlt : i < cells.length := Nat.lt_of_succ_le (Nat.le_of_eq hi)
    rwa [cellAt_below hlt, cellAt_top hi]

/-- A field stays covered by the same cells as the row is continued to the left, unless its own cell
is repeated there. -/
theorem append (h : Covers f cells d) (hends : c.mark.kind? = some f.kind → cells.head? ≠ some c) :
    Covers f (List.replicate width c ++ cells) d := by
  have hpos := h.pos
  have hwithin := h.within
  refine ⟨h.kind, hpos, ?_, ?_, ?_⟩
  · intro i hi hi'
    rw [cellAt_below (by omega)]
    exact h.row i hi hi'
  · intro habove
    rcases hwithin.lt_or_eq with hlt | htop
    · rw [cellAt_below hlt] at habove
      exact h.above habove
    · obtain rfl := eq_of_cellAt habove (Nat.le_of_eq htop.symm)
      have hrow := h.row (cells.length - 1) (by omega) (by omega)
      rw [cellAt_top (by omega)] at hrow
      exact hends h.kind hrow
  · intro i hi
    rw [cellAt_below (by omega)]
    exact h.below i hi

/-- Equal cells in front of others are covered as a whole, if at all. -/
theorem of_append (h : Covers f (List.replicate width c ++ cells) d)
    (hends : c.mark.kind? = some f.kind → cells.head? ≠ some c) :
    d = c ∧ f.shift = cells.length ∧ f.width = width ∨ Covers f cells d := by
  have hpos := h.pos
  have hwithin := h.within
  rw [List.length_append, List.length_replicate] at hwithin
  have hcell (hover : cells.length ≤ f.shift) : d = c :=
    eq_of_cellAt (h.row f.shift (Nat.le_refl _) (by omega)) hover
  rcases Nat.lt_trichotomy f.shift cells.length with hlow | hsame | hhigh
  · -- A field across the start of the row would have the row's cell on both sides of it.
    have hin : f.shift + f.width ≤ cells.length := by
      by_contra hout
      obtain rfl := eq_of_cellAt (h.row cells.length (by omega) (by omega)) (Nat.le_refl _)
      have hrow := h.row (cells.length - 1) (by omega) (by omega)
      rw [cellAt_below (by omega), cellAt_top (by omega)] at hrow
      exact hends h.kind hrow
    refine .inr ⟨h.kind, hpos, ?_, ?_, ?_⟩
    · intro i hi hi'
      rw [← h.row i hi hi', cellAt_below (by omega)]
    · rcases hin.lt_or_eq with hlt | htop
      · rw [← cellAt_below hlt]
        exact h.above
      · simp [cellAt_of_ge (Nat.le_of_eq htop.symm)]
    · intro i hi
      rw [← cellAt_below (by omega)]
      exact h.below i hi
  · obtain rfl := hcell (Nat.le_of_eq hsame.symm)
    refine .inl ⟨rfl, hsame, ?_⟩
    by_contra hne
    exact h.above (cellAt_row (by omega) (by omega))
  · obtain rfl := hcell (Nat.le_of_lt hhigh)
    exact absurd (cellAt_row (by omega) (by omega)) (h.below (f.shift - 1) (by omega))

end Covers

/-- The template has the fixed bits and the fields that the cells spell, the fields from left to
right. -/
structure Shows (t : Template) (cells : List Cell) : Prop where
  mask : ∀ i, t.fixedMask.getLsbD i ↔
    ∃ c, cellAt? cells i = some c ∧ (c.mark = .symbol '0' ∨ c.mark = .symbol '1')
  bits : ∀ i, t.fixedBits.getLsbD i ↔ ∃ c, cellAt? cells i = some c ∧ c.mark = .symbol '1'
  fields : ∀ f, f ∈ t.fields ↔ ∃ c, Covers f cells c
  ordered : t.fields.Pairwise fun f g => g.shift < f.shift

theorem Shows.unique {t t' : Template} {cells : List Cell} (h : t.Shows cells)
    (h' : t'.Shows cells) : t = t' := by
  have hmask : t.fixedMask = t'.fixedMask :=
    BitVec.eq_of_getLsbD_eq fun i _ => Bool.eq_iff_iff.mpr ((h.mask i).trans (h'.mask i).symm)
  have hbits : t.fixedBits = t'.fixedBits :=
    BitVec.eq_of_getLsbD_eq fun i _ => Bool.eq_iff_iff.mpr ((h.bits i).trans (h'.bits i).symm)
  have hfields : t.fields = t'.fields := by
    have : Std.Irrefl fun f g : Field => g.shift < f.shift := ⟨fun f => Nat.lt_irrefl f.shift⟩
    have : Std.Antisymm fun f g : Field => g.shift < f.shift :=
      ⟨fun _ _ hfg hgf => absurd hfg (Nat.lt_asymm hgf)⟩
    exact h.ordered.eq_of_mem_iff h'.ordered fun f => (h.fields f).trans (h'.fields f).symm
  cases t
  cases t'
  cases hmask
  cases hbits
  cases hfields
  rfl

theorem getLsbD_fixedMask_bit (value : Bool) {ss : List Segment} (hw : totalWidth ss < 32)
    (i : Nat) :
    (ofSegments (.bit value :: ss)).fixedMask.getLsbD i =
      ((ofSegments ss).fixedMask.getLsbD i || decide (i = totalWidth ss)) := by
  change ((ofSegments ss).fixedMask ||| (1 : Word) <<< totalWidth ss).getLsbD i = _
  rw [BitVec.getLsbD_or, Word.getLsbD_one_shiftLeft hw]

theorem getLsbD_fixedBits_bit (value : Bool) {ss : List Segment} (hw : totalWidth ss < 32)
    (i : Nat) :
    (ofSegments (.bit value :: ss)).fixedBits.getLsbD i =
      ((ofSegments ss).fixedBits.getLsbD i || (value && decide (i = totalWidth ss))) := by
  cases value with
  | false =>
    rw [Bool.false_and, Bool.or_false]
    rfl
  | true =>
    change ((ofSegments ss).fixedBits ||| (1 : Word) <<< totalWidth ss).getLsbD i = _
    rw [BitVec.getLsbD_or, Word.getLsbD_one_shiftLeft hw, Bool.true_and]

/-- Exactly the cells of a bit are fixed. -/
theorem Spells.fixed {ss : List Segment} {cells : List Cell} (h : Spells ss cells)
    (hw : totalWidth ss ≤ 32) (i : Nat) :
    ((ofSegments ss).fixedMask.getLsbD i ↔
      ∃ c, cellAt? cells i = some c ∧ (c.mark = .symbol '0' ∨ c.mark = .symbol '1')) ∧
    ((ofSegments ss).fixedBits.getLsbD i ↔
      ∃ c, cellAt? cells i = some c ∧ c.mark = .symbol '1') := by
  induction h with
  | nil => simp [ofSegments, cellAt?]
  | @bit value c ss cells mark rest ih =>
    have hroom : totalWidth ss < 32 := by
      rw [totalWidth, Segment.width] at hw
      omega
    have hrest := ih (Nat.le_of_lt hroom)
    rw [getLsbD_fixedMask_bit value hroom, getLsbD_fixedBits_bit value hroom, ← rest.length]
    rcases Nat.lt_trichotomy i cells.length with hlow | rfl | hhigh
    · rw [cellAt_below hlow]
      simpa [Nat.ne_of_lt hlow] using hrest
    · rw [cellAt_of_ge (Nat.le_refl _)] at hrest
      rw [cellAt_row (Nat.le_refl _) (Nat.lt_succ_self _)]
      obtain ⟨_, hnone⟩ : _ ∧ (ofSegments ss).fixedBits.getLsbD cells.length = false := by
        simpa using hrest
      cases value <;> simp [mark, hnone]
    · rw [cellAt_of_ge (Nat.le_of_lt hhigh)] at hrest
      rw [cellAt_beyond hhigh]
      simpa [Nat.ne_of_gt hhigh] using hrest
  | @field kind width c ss cells kind_eq pos ends rest ih =>
    have hroom : totalWidth ss ≤ 32 := by
      rw [totalWidth, Segment.width] at hw
      omega
    have hrest := ih hroom
    change ((ofSegments ss).fixedMask.getLsbD i ↔ _) ∧ ((ofSegments ss).fixedBits.getLsbD i ↔ _)
    rcases Nat.lt_or_ge i cells.length with hlow | hhigh
    · rwa [cellAt_below hlow]
    · rw [cellAt_of_ge hhigh] at hrest
      have hnot (value : Bool) : c.mark ≠ .symbol (if value then '1' else '0') := by
        intro hmark
        rw [hmark] at kind_eq
        cases value <;> cases kind_eq
      have hfree (d : Cell) (hd : cellAt? (List.replicate width c ++ cells) i = some d)
          (value : Bool) : d.mark ≠ .symbol (if value then '1' else '0') :=
        eq_of_cellAt hd hhigh ▸ hnot value
      refine ⟨hrest.1.trans ⟨by simp, ?_⟩, hrest.2.trans ⟨by simp, ?_⟩⟩
      · rintro ⟨d, hd, hzero | hone⟩
        · exact absurd hzero (hfree d hd false)
        · exact absurd hone (hfree d hd true)
      · rintro ⟨d, hd, hone⟩
        exact absurd hone (hfree d hd true)

theorem Spells.fields {ss : List Segment} {cells : List Cell} (h : Spells ss cells) (f : Field) :
    f ∈ (ofSegments ss).fields ↔ ∃ c, Covers f cells c := by
  induction h with
  | nil =>
    constructor
    · intro hf
      simp [ofSegments] at hf
    · rintro ⟨c, hc⟩
      have hpos := hc.pos
      have hwithin : f.shift + f.width ≤ 0 := hc.within
      omega
  | @bit value c ss cells mark rest ih =>
    have hkind : c.mark.kind? = none := by
      rw [mark]
      cases value <;> rfl
    have hends : c.mark.kind? = some f.kind → cells.head? ≠ some c := by simp [hkind]
    refine ih.trans ⟨Exists.imp fun d hd => hd.append hends, ?_⟩
    rintro ⟨d, hd⟩
    rcases hd.of_append hends with ⟨rfl, _⟩ | hd'
    · simpa [hkind] using hd.kind
    · exact ⟨d, hd'⟩
  | @field kind width c ss cells kind_eq pos ends rest ih =>
    refine (List.mem_cons.trans (or_congr Iff.rfl ih)).trans ?_
    rw [← rest.length]
    constructor
    · rintro (rfl | ⟨d, hd⟩)
      · exact ⟨c, .row_append kind_eq pos ends⟩
      · exact ⟨d, hd.append fun _ => ends⟩
    · rintro ⟨d, hd⟩
      rcases hd.of_append fun _ => ends with ⟨rfl, hshift, hwidth⟩ | hd'
      · obtain rfl : kind = f.kind := Option.some.inj (kind_eq.symm.trans hd.kind)
        rw [← hshift, ← hwidth]
        exact .inl rfl
      · exact .inr ⟨d, hd'⟩

theorem Spells.shows {ss : List Segment} {cells : List Cell} (h : Spells ss cells)
    (hs : ∀ s ∈ ss, s.Sound) (hw : totalWidth ss ≤ 32) : (ofSegments ss).Shows cells where
  mask i := (h.fixed hw i).1
  bits i := (h.fixed hw i).2
  fields := h.fields
  ordered := (ofSegments_fills hs hw).ordered

/-- Reading the template of an instruction. A refusal names the instruction. -/
def parseFor (mnemonic text : String) : Except CatalogError Template :=
  (parse text).mapError fun cause => ⟨mnemonic, .template cause⟩

/-- Template text is refused for its leftmost group outside the grammar, if there is one, and then
for a width other than that of a word. All other text has one template. -/
theorem parseFor_eq (mnemonic text : String) :
    match (groups text).find? (fun group => ¬IsGroup group) with
    | some group =>
      parseFor mnemonic text = .error ⟨mnemonic, .template (.malformed (String.ofList group))⟩
    | none =>
      if (cells text).length = 32 then
        ∃ t, parseFor mnemonic text = .ok t ∧ ∀ t', t'.Shows (cells text) ↔ t' = t
      else
        parseFor mnemonic text = .error ⟨mnemonic, .template (.width (cells text).length)⟩ := by
  have hsegments := segments_eq 0 (groups text)
  rw [parseFor, parse]
  split
  · next group hgroup =>
    rw [hgroup] at hsegments
    simp only at hsegments
    rw [hsegments]
    rfl
  · next hnone =>
    rw [hnone] at hsegments
    obtain ⟨ss, hss, hspells⟩ := hsegments
    have hlength : (cells text).length = totalWidth ss := hspells.length
    rw [hss, hlength]
    split
    · next hwidth =>
      have hsound : ∀ s ∈ ss, s.Sound := fun s hs => (segments_declared hss s hs).sound
      have hshows := hspells.shows hsound (Nat.le_of_eq hwidth)
      refine ⟨ofSegments ss, ?_, fun t' => ⟨fun h => h.unique hshows, fun h => h ▸ hshows⟩⟩
      simp only [wordBits, hwidth, ↓reduceIte]
      rfl
    · next hwidth =>
      simp only [wordBits, hwidth, ↓reduceIte]
      rfl

example : (parse "dd ddd0 rrrrrrrrrr immediate").map (·.fields) =
    .ok [⟨.register, 30, 2⟩, ⟨.register, 27, 3⟩, ⟨.register, 16, 10⟩, ⟨.immediate, 0, 16⟩] := by
  decide +kernel

end Template

theorem Entry.build_eq (e : Entry) :
    e.build = (Template.parseFor e.opcode.mnemonic e.template).bind fun t =>
      if t.Fits e.kind then .ok ⟨e.opcode, e.usage, e.description, e.kind, t⟩
      else .error ⟨e.opcode.mnemonic, .layoutMismatch e.kind⟩ := by
  rw [build, Template.parseFor]
  cases Template.parse e.template with
  | error cause => rfl
  | ok t => rfl

end MagicAssembly
