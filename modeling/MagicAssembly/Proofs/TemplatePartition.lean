import Mathlib.Data.List.Basic
import MagicAssembly.Proofs.TemplateLayout

namespace MagicAssembly.Template

/-- The segment takes the bits from `shift` up, below all that is there so far. -/
def extend (t : Template) (shift : Nat) : Segment → Template
  | .bit value =>
    let here : Word := 1 <<< shift
    { t with
      fixedMask := t.fixedMask ||| here
      fixedBits := if value then t.fixedBits ||| here else t.fixedBits }
  | .field kind width => { t with fields := t.fields ++ [⟨kind, shift, width⟩] }

/-- A template on its way down the word. The bits below `left` are still free. -/
structure Draft where
  template : Template
  left : Nat

namespace Draft

def blank : Draft :=
  ⟨⟨0, 0, []⟩, wordBits⟩

/-- The segment goes to the highest free bits. There is no draft if they are too few. -/
def lay (d : Draft) (s : Segment) : Option Draft :=
  if s.width ≤ d.left then
    some ⟨d.template.extend (d.left - s.width) s, d.left - s.width⟩
  else none

theorem width_le_of_lay {d d' : Draft} {s : Segment} (h : d.lay s = some d') :
    s.width ≤ d.left := by
  unfold lay at h
  split at h
  · assumption
  · cases h

theorem lay_above (t : Template) (s : Segment) (n : Nat) :
    lay ⟨t, s.width + n⟩ s = some ⟨t.extend n s, n⟩ := by
  simp only [lay, Nat.le_add_right, if_true, Nat.add_sub_cancel_left]

end Draft

/-- Two parts of one word. The fields of the upper part come first. -/
def join (upper lower : Template) : Template :=
  ⟨upper.fixedMask ||| lower.fixedMask, upper.fixedBits ||| lower.fixedBits,
    upper.fields ++ lower.fields⟩

theorem blank_join (t : Template) : Draft.blank.template.join t = t := by
  obtain ⟨mask, bits, fields⟩ := t
  change Template.mk (0#32 ||| mask) (0#32 ||| bits) fields = _
  rw [BitVec.zero_or, BitVec.zero_or]

theorem join_ofSegments_nil (t : Template) : t.join (ofSegments []) = t := by
  obtain ⟨mask, bits, fields⟩ := t
  change Template.mk (mask ||| 0#32) (bits ||| 0#32) (fields ++ []) = _
  rw [BitVec.or_zero, BitVec.or_zero, List.append_nil]

/-- It makes no difference whether a segment is the last one above or the first one below. -/
theorem extend_join (t : Template) (s : Segment) (ss : List Segment) :
    (t.extend (totalWidth ss) s).join (ofSegments ss) = t.join (ofSegments (s :: ss)) := by
  have move (x y here : Word) : x ||| here ||| y = x ||| (y ||| here) := by
    rw [BitVec.or_assoc, BitVec.or_comm here]
  cases s with
  | bit value =>
    simp only [extend, join, ofSegments, move]
    cases value with
    | false => rfl
    | true => simp only [if_true, move]
  | field kind width =>
    simp only [extend, join, ofSegments, List.append_assoc, List.singleton_append]

/-- Going down from the top comes to the same as counting the bits that follow. The segments use up
the bits that are left. -/
theorem foldlM_lay (t : Template) (ss : List Segment) :
    ss.foldlM Draft.lay ⟨t, totalWidth ss⟩ = some ⟨t.join (ofSegments ss), 0⟩ := by
  induction ss generalizing t with
  | nil =>
    rw [join_ofSegments_nil]
    rfl
  | cons s ss ih =>
    rw [List.foldlM_cons, totalWidth, Draft.lay_above, Option.bind_eq_bind, Option.bind_some, ih,
      extend_join]

/-- Segments that are laid out to the end found enough bits left, each of them. -/
theorem left_of_foldlM_lay {d d' : Draft} {before after : List Segment} {s : Segment}
    (h : (before ++ s :: after).foldlM Draft.lay d = some d') :
    ∃ mid, before.foldlM Draft.lay d = some mid ∧ s.width ≤ mid.left := by
  rw [List.foldlM_append] at h
  obtain ⟨mid, hmid, hrest⟩ := Option.bind_eq_some_iff.mp h
  rw [List.foldlM_cons] at hrest
  obtain ⟨next, hnext, _⟩ := Option.bind_eq_some_iff.mp hrest
  exact ⟨mid, hmid, Draft.width_le_of_lay hnext⟩

/-- A template that is accepted gives each bit of the word to the fixed bits or to one field. Laid
out from the highest bit down it never wants for a bit, and none is left over. -/
theorem parse_partitions {text : String} {t : Template} (h : parse text = .ok t) :
    t.fixedBits &&& ~~~t.fixedMask = 0 ∧
    (∀ f ∈ t.fields, 1 ≤ f.width ∧ f.shift + f.width ≤ 32) ∧
    (t.fixedMask :: t.fields.map Field.mask).Pairwise (fun a b => a &&& b = 0) ∧
    t.fixedMask ||| fieldsMask t.fields = BitVec.allOnes 32 ∧
    t.fields.Pairwise (fun f g => g.shift < f.shift) ∧
    ∃ ss, segments (groups text) = .ok ss ∧ ss.foldlM Draft.lay .blank = some ⟨t, 0⟩ ∧
      ∀ before s after, ss = before ++ s :: after →
        ∃ d, before.foldlM Draft.lay .blank = some d ∧ s.width ≤ d.left := by
  have hfills := fills_of_parse h
  obtain ⟨ss, hss, hwidth, rfl⟩ := parse_eq_ok h
  have hlaid : ss.foldlM Draft.lay .blank = some ⟨ofSegments ss, 0⟩ := by
    have hfold := foldlM_lay Draft.blank.template ss
    rwa [hwidth, blank_join] at hfold
  refine ⟨hfills.bits_inside, hfills.within, ?_, ?_, hfills.ordered, ss, hss, hlaid, ?_⟩
  · refine List.pairwise_cons.mpr ⟨?_, List.pairwise_map.mpr hfills.masks_disjoint⟩
    intro mask hmask
    obtain ⟨f, hf, rfl⟩ := List.mem_map.mp hmask
    exact hfills.apart f hf
  · rw [hfills.cover, Word.low_full]
  · rintro before s after rfl
    exact left_of_foldlM_lay hlaid

/-- Four registers of one bit each, then two fixed bits, then a jump. -/
def narrow : Template :=
  ⟨0x0C000000, 0x04000000, [⟨.register, 31, 1⟩, ⟨.register, 30, 1⟩, ⟨.register, 29, 1⟩,
    ⟨.register, 28, 1⟩, ⟨.jumpAddress, 0, 26⟩]⟩

theorem narrow_partitions :
    parse "st rd0 1 address26" = .ok narrow ∧
      narrow.fixedBits &&& ~~~narrow.fixedMask = 0 ∧
      (∀ f ∈ narrow.fields, 1 ≤ f.width ∧ f.shift + f.width ≤ 32) ∧
      (narrow.fixedMask :: narrow.fields.map Field.mask).Pairwise (fun a b => a &&& b = 0) ∧
      narrow.fixedMask ||| fieldsMask narrow.fields = BitVec.allOnes 32 ∧
      narrow.fields.Pairwise (fun f g => g.shift < f.shift) ∧
      ∃ ss, segments (groups "st rd0 1 address26") = .ok ss ∧
        ss.foldlM Draft.lay .blank = some ⟨narrow, 0⟩ ∧
        ∀ before s after, ss = before ++ s :: after →
          ∃ d, before.foldlM Draft.lay .blank = some d ∧ s.width ≤ d.left := by
  have hparse : parse "st rd0 1 address26" = .ok narrow := by decide +kernel
  exact ⟨hparse, parse_partitions hparse⟩

end MagicAssembly.Template
