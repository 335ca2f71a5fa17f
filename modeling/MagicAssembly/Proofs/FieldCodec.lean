import MagicAssembly.Field
import MagicAssembly.Proofs.WordBits

namespace MagicAssembly

theorem getLsbD_jumpRegion (pc : Word) (i : Nat) :
    (jumpRegion pc).getLsbD i = ((pc + 4).getLsbD i && decide (28 ≤ i ∧ i < 32)) := by
  have hm : (0xF0000000 : Word) = BitVec.allOnes 32 <<< 28 := by decide
  rw [jumpRegion, hm, BitVec.getLsbD_and, BitVec.getLsbD_shiftLeft, BitVec.getLsbD_allOnes]
  congr 1
  grind

namespace Field

@[simp] theorem getLsbD_mask (f : Field) (i : Nat) :
    f.mask.getLsbD i = decide (i < 32 ∧ f.shift ≤ i ∧ i < f.shift + f.width) := by
  change ((Word.low f.width) <<< f.shift).getLsbD i = _
  rw [BitVec.getLsbD_shiftLeft, Word.getLsbD_low]
  grind

@[simp] theorem getLsbD_raw (f : Field) (w : Word) (i : Nat) :
    (f.raw w).getLsbD i =
      (w.getLsbD (f.shift + i) && decide (f.shift + i < 32 ∧ i < f.width)) := by
  rw [raw, BitVec.getLsbD_ushiftRight, BitVec.getLsbD_and, getLsbD_mask]
  grind

/-- Only the bits of the field count. -/
theorem extract_and_mask (f : Field) (w pc : Word) : f.extract (w &&& f.mask) pc = f.extract w pc := by
  have hr : f.raw (w &&& f.mask) = f.raw w := by
    rw [raw, raw, BitVec.and_assoc, BitVec.and_self]
  rw [extract, extract, hr]

/-- Bits moved to the place of the field, all others cleared. -/
def place (f : Field) (bits : Word) : Word :=
  (bits <<< f.shift) &&& f.mask

@[simp] theorem getLsbD_place (f : Field) (bits : Word) (i : Nat) :
    (f.place bits).getLsbD i =
      (bits.getLsbD (i - f.shift) && decide (i < 32 ∧ f.shift ≤ i ∧ i < f.shift + f.width)) := by
  rw [place, BitVec.getLsbD_and, BitVec.getLsbD_shiftLeft, getLsbD_mask]
  grind

theorem insert_eq_some_iff {f : Field} {value pc bits : Word} :
    f.insert value pc = some bits ↔
      bits = f.place (f.kind.proposal value pc) ∧ f.extract bits pc = value := by
  change (if f.extract (f.place (f.kind.proposal value pc)) pc = value then
    some (f.place (f.kind.proposal value pc)) else none) = some bits ↔ _
  grind

theorem extract_of_insert {f : Field} {value pc bits : Word} (h : f.insert value pc = some bits) :
    f.extract bits pc = value :=
  (insert_eq_some_iff.mp h).2

theorem insert_inside {f : Field} {value pc bits : Word} (h : f.insert value pc = some bits) :
    bits &&& ~~~f.mask = 0 := by
  obtain ⟨rfl, _⟩ := insert_eq_some_iff.mp h
  rw [place, BitVec.and_assoc]
  simp

/-- An operand is proposed with the very bits it was read from, wherever a bit was read at all. -/
theorem extract_place_proposal (f : Field) (w pc : Word) :
    f.extract (f.place (f.kind.proposal (f.extract w pc) pc)) pc = f.extract w pc := by
  obtain ⟨kind, shift, width⟩ := f
  cases kind with
  | register =>
    apply BitVec.eq_of_getLsbD_eq
    intro i hi
    simp only [extract, FieldKind.operand, FieldKind.proposal, getLsbD_raw, getLsbD_place]
    grind
  | immediate =>
    apply BitVec.eq_of_getLsbD_eq
    intro i hi
    simp only [extract, FieldKind.operand, FieldKind.proposal, Word.getLsbD_signExtend16,
      getLsbD_raw, getLsbD_place]
    grind
  | branchOffset =>
    simp only [extract, FieldKind.operand, FieldKind.proposal, Word.add_sub_left]
    congr 1
    apply BitVec.eq_of_getLsbD_eq
    intro i hi
    simp only [BitVec.getLsbD_shiftLeft, BitVec.getLsbD_ushiftRight, Word.getLsbD_signExtend16,
      getLsbD_raw, getLsbD_place]
    grind
  | jumpAddress =>
    apply BitVec.eq_of_getLsbD_eq
    intro i hi
    simp only [extract, FieldKind.operand, FieldKind.proposal, BitVec.getLsbD_or,
      BitVec.getLsbD_shiftLeft, BitVec.getLsbD_ushiftRight, getLsbD_raw, getLsbD_place]
    grind

/-- The kind reads every bit that the field has: a longer immediate would lose its upper bits. -/
def KeepsBits (f : Field) : Prop :=
  match f.kind with
  | .register => True
  | .immediate | .branchOffset => f.width ≤ immediateFieldBits
  | .jumpAddress => f.width ≤ jumpFieldBits

theorem place_proposal_extract {f : Field} (hk : f.KeepsBits) (w pc : Word) :
    f.place (f.kind.proposal (f.extract w pc) pc) = w &&& f.mask := by
  obtain ⟨kind, shift, width⟩ := f
  apply BitVec.eq_of_getLsbD_eq
  intro i hi
  cases kind with
  | register =>
    simp only [extract, FieldKind.operand, FieldKind.proposal, BitVec.getLsbD_and, getLsbD_raw,
      getLsbD_place, getLsbD_mask]
    grind
  | immediate =>
    have hw : width ≤ 16 := hk
    simp only [extract, FieldKind.operand, FieldKind.proposal, BitVec.getLsbD_and, getLsbD_raw,
      getLsbD_place, getLsbD_mask, Word.getLsbD_signExtend16]
    grind
  | branchOffset =>
    have hw : width ≤ 16 := hk
    simp only [extract, FieldKind.operand, FieldKind.proposal, BitVec.getLsbD_and, getLsbD_raw,
      getLsbD_place, getLsbD_mask, Word.getLsbD_signExtend16, Word.add_sub_left,
      BitVec.getLsbD_shiftLeft, BitVec.getLsbD_ushiftRight]
    grind
  | jumpAddress =>
    have hw : width ≤ 26 := hk
    simp only [extract, FieldKind.operand, FieldKind.proposal, BitVec.getLsbD_and, getLsbD_raw,
      getLsbD_place, getLsbD_mask, BitVec.getLsbD_or, getLsbD_jumpRegion,
      BitVec.getLsbD_shiftLeft, BitVec.getLsbD_ushiftRight]
    grind

/-- What was read from a word goes back to where it was. -/
theorem insert_extract {f : Field} (hk : f.KeepsBits) (w pc : Word) :
    f.insert (f.extract w pc) pc = some (w &&& f.mask) := by
  rw [insert_eq_some_iff, place_proposal_extract hk, extract_and_mask]
  exact ⟨rfl, rfl⟩

end Field

end MagicAssembly
