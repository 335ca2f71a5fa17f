import Mathlib.Algebra.Group.Int.Defs
import Mathlib.Algebra.Group.Nat.Defs
import Mathlib.Data.List.Forall2
import MagicAssembly.Proofs.TemplateCodec

namespace MagicAssembly

namespace Field

/-- The operands that a field of the grammar can hold in an instruction at `pc`. Only a register
field can have any width. -/
def Holds (f : Field) (pc value : Word) : Prop :=
  match f.kind with
  | .register => f.width = 32 ∨ 0 ≤ value.toInt ∧ value.toInt < 2 ^ f.width
  | .immediate => -32768 ≤ value.toInt ∧ value.toInt ≤ 32767
  | .branchOffset =>
    let distance := (value.toInt - (pc.toNat + 4)).bmod (2 ^ 32)
    4 ∣ distance ∧ -131072 ≤ distance ∧ distance ≤ 131068
  | .jumpAddress => 4 ∣ value.toInt ∧ value.toNat / 2 ^ 28 = (pc.toNat + 4) % 2 ^ 32 / 2 ^ 28

instance (pc value : Word) : (f : Field) → Decidable (f.Holds pc value)
  | ⟨.register, _, _⟩ => inferInstanceAs (Decidable (_ ∨ _ ∧ _))
  | ⟨.immediate, _, _⟩ | ⟨.jumpAddress, _, _⟩ => inferInstanceAs (Decidable (_ ∧ _))
  | ⟨.branchOffset, _, _⟩ => inferInstanceAs (Decidable (_ ∧ _ ∧ _))

/-- A value fits exactly if some word has it. -/
theorem insert_isSome_iff {f : Field} {value pc : Word} :
    (f.insert value pc).isSome ↔ ∃ w, f.extract w pc = value := by
  rw [Option.isSome_iff_exists]
  constructor
  · rintro ⟨bits, h⟩
    exact ⟨bits, extract_of_insert h⟩
  · rintro ⟨w, rfl⟩
    exact ⟨_, insert_eq_some_iff.mpr ⟨rfl, f.extract_place_proposal w pc⟩⟩

/-- Any field takes exactly the values that some word has in it, as bits of its own that read back
as the value, and nothing outside it has a part in what is read. The field may reach out of the
word, and its width need not suit its kind. -/
theorem insert_inverts_extract (f : Field) (value pc : Word) :
    (∀ w, f.insert value pc = some w → w &&& ~~~f.mask = 0 ∧ f.extract w pc = value) ∧
    (f.insert value pc = none ↔ ∀ w, f.extract w pc ≠ value) ∧
    ∀ w w', w &&& f.mask = w' &&& f.mask → f.extract w pc = f.extract w' pc := by
  refine ⟨?_, ?_, ?_⟩
  · intro w h
    exact ⟨insert_inside h, extract_of_insert h⟩
  · rw [← not_exists, ← insert_isSome_iff, Option.not_isSome_iff_eq_none]
  · intro w w' h
    rw [← extract_and_mask f w, h, extract_and_mask]

/-- A jump index that reaches out of the word and whose own bits overlap those of the region. -/
def overlongJump : Field :=
  ⟨.jumpAddress, 1, 40⟩

theorem overlongJump_inverts :
    overlongJump.insert 0xF0000004 0xF0000000 = some 0x78000002 ∧
      (0x78000002 : Word) &&& ~~~overlongJump.mask = 0 ∧
      overlongJump.extract 0x78000002 0xF0000000 = 0xF0000004 ∧
      overlongJump.insert 0x10000004 0xF0000000 = none ∧
      (∀ w, overlongJump.extract w 0xF0000000 ≠ 0x10000004) ∧
      overlongJump.extract 0x78000003 0xF0000000 = 0xF0000004 := by
  have htaken : overlongJump.insert 0xF0000004 0xF0000000 = some 0x78000002 := by decide
  have hrefused : overlongJump.insert 0x10000004 0xF0000000 = none := by decide
  have hsame : (0x78000003 : Word) &&& overlongJump.mask = 0x78000002 &&& overlongJump.mask := by
    decide
  obtain ⟨htakes, _, hmasked⟩ := insert_inverts_extract overlongJump 0xF0000004 0xF0000000
  obtain ⟨_, hrefuses, _⟩ := insert_inverts_extract overlongJump 0x10000004 0xF0000000
  obtain ⟨hinside, hread⟩ := htakes _ htaken
  exact ⟨htaken, hinside, hread, hrefused, hrefuses.mp hrefused, (hmasked _ _ hsame).trans hread⟩

/-- The bits of a field can be any number of that width. -/
theorem exists_raw_iff {f : Field} (h : f.shift + f.width ≤ 32) {raw : Word} :
    (∃ w, f.raw w = raw) ↔ ∃ bits : BitVec f.width, bits.setWidth 32 = raw := by
  constructor
  · rintro ⟨w, rfl⟩
    refine ⟨w.extractLsb' f.shift f.width, BitVec.eq_of_getLsbD_eq fun i hi => ?_⟩
    rw [getLsbD_raw, BitVec.getLsbD_setWidth, BitVec.getLsbD_extractLsb']
    grind
  · rintro ⟨bits, rfl⟩
    refine ⟨bits.setWidth 32 <<< f.shift, BitVec.eq_of_getLsbD_eq fun i hi => ?_⟩
    rw [getLsbD_raw, BitVec.getLsbD_shiftLeft, BitVec.getLsbD_setWidth, BitVec.getLsbD_setWidth]
    have hout : f.width ≤ i → bits.getLsbD i = false := BitVec.getLsbD_of_ge bits i
    grind

theorem insert_isSome_iff_bits {f : Field} (h : f.shift + f.width ≤ 32) {value pc : Word} :
    (f.insert value pc).isSome ↔
      ∃ bits : BitVec f.width, f.kind.operand (bits.setWidth 32) pc = value := by
  rw [insert_isSome_iff]
  constructor
  · rintro ⟨w, hw⟩
    obtain ⟨bits, hbits⟩ := (exists_raw_iff h).mp ⟨w, rfl⟩
    exact ⟨bits, (congrArg (f.kind.operand · pc) hbits).trans hw⟩
  · rintro ⟨bits, hbits⟩
    obtain ⟨w, hw⟩ := (exists_raw_iff h).mpr ⟨bits, rfl⟩
    exact ⟨w, (congrArg (f.kind.operand · pc) hw).trans hbits⟩

end Field

namespace Word

theorem toNat_lt_iff {n : Nat} (hn : n ≤ 32) {value : Word} :
    value.toNat < 2 ^ n ↔ n = 32 ∨ 0 ≤ value.toInt ∧ value.toInt < 2 ^ n := by
  have hmax : value.toNat < 2 ^ 32 := value.isLt
  rcases Nat.eq_or_lt_of_le hn with rfl | hlt
  · exact iff_of_true hmax (.inl rfl)
  · have hpow : 2 ^ n ≤ 2 ^ 31 := Nat.pow_le_pow_right (by decide) (by omega)
    have hcast : ((2 ^ n : Nat) : Int) = 2 ^ n := by simp
    rw [BitVec.toInt_eq_toNat_cond, ← hcast]
    split <;> omega

theorem setWidth_reaches_iff {n : Nat} (hn : n ≤ 32) {value : Word} :
    (∃ bits : BitVec n, bits.setWidth 32 = value) ↔
      n = 32 ∨ 0 ≤ value.toInt ∧ value.toInt < 2 ^ n := by
  rw [← toNat_lt_iff hn]
  constructor
  · rintro ⟨bits, rfl⟩
    rw [BitVec.toNat_setWidth_of_le hn]
    exact bits.isLt
  · intro h
    refine ⟨value.setWidth n, BitVec.eq_of_toNat_eq ?_⟩
    rw [BitVec.toNat_setWidth_of_le hn, BitVec.toNat_setWidth, Nat.mod_eq_of_lt h]

theorem signExtend_reaches_iff {value : Word} :
    (∃ half : BitVec 16, half.signExtend 32 = value) ↔
      -32768 ≤ value.toInt ∧ value.toInt ≤ 32767 := by
  constructor
  · rintro ⟨half, rfl⟩
    have hlow := BitVec.le_toInt half
    have hhigh : half.toInt < 2 ^ 15 := BitVec.toInt_lt
    rw [BitVec.toInt_signExtend_of_le (by decide)]
    omega
  · rintro ⟨hlow, hhigh⟩
    refine ⟨BitVec.ofInt 16 value.toInt, BitVec.eq_of_toInt_eq ?_⟩
    rw [BitVec.toInt_signExtend_of_le (by decide), BitVec.toInt_ofInt]
    exact Int.bmod_eq_of_le (by omega) (by omega)

theorem toInt_four_mul {w : Word} (hlow : -32768 ≤ w.toInt) (hhigh : w.toInt ≤ 32767) :
    (w <<< 2).toInt = 4 * w.toInt := by
  have hfour : (BitVec.twoPow 32 2).toInt = 4 := by decide
  rw [BitVec.shiftLeft_eq_mul_twoPow, BitVec.toInt_mul, hfour, Int.mul_comm]
  exact Int.bmod_eq_of_le (by omega) (by omega)

/-- A branch reaches every fourth address from 2 ^ 15 words back to 2 ^ 15 - 1 words on. -/
theorem distance_reaches_iff {distance : Word} :
    (∃ half : BitVec 16, half.signExtend 32 <<< 2 = distance) ↔
      4 ∣ distance.toInt ∧ -131072 ≤ distance.toInt ∧ distance.toInt ≤ 131068 := by
  constructor
  · rintro ⟨half, rfl⟩
    obtain ⟨hlow, hhigh⟩ := signExtend_reaches_iff.mp ⟨half, rfl⟩
    rw [toInt_four_mul hlow hhigh]
    omega
  · rintro ⟨⟨count, hcount⟩, hlow, hhigh⟩
    have hwords : (BitVec.ofInt 32 count).toInt = count := by
      rw [BitVec.toInt_ofInt]
      exact Int.bmod_eq_of_le (by omega) (by omega)
    have hrange : -32768 ≤ (BitVec.ofInt 32 count).toInt ∧
        (BitVec.ofInt 32 count).toInt ≤ 32767 := by
      omega
    obtain ⟨half, hhalf⟩ := signExtend_reaches_iff.mpr hrange
    refine ⟨half, BitVec.eq_of_toInt_eq ?_⟩
    rw [hhalf, toInt_four_mul hrange.1 hrange.2, hwords, hcount]

theorem toNat_next (pc : Word) : (pc + 4).toNat = (pc.toNat + 4) % 2 ^ 32 := by
  rw [BitVec.toNat_add]
  rfl

theorem toInt_sub_next (value pc : Word) :
    (value - (pc + 4)).toInt = (value.toInt - (pc.toNat + 4)).bmod (2 ^ 32) := by
  have hnext : (pc + 4).toInt = ((pc.toNat : Int) + 4).bmod (2 ^ 32) := by
    rw [BitVec.toInt_eq_toNat_bmod, toNat_next, Int.natCast_emod, Int.emod_bmod, Int.natCast_add]
    rfl
  rw [BitVec.toInt_sub, hnext, Int.sub_bmod_bmod]

theorem four_dvd_iff {w : Word} : 4 ∣ w.toInt ↔ ∀ i < 2, w.getLsbD i = false := by
  have hbits : (∀ i < 2, w.getLsbD i = false) ↔ w.getLsbD 0 = false ∧ w.getLsbD 1 = false := by
    grind
  rw [hbits, BitVec.getLsbD, BitVec.getLsbD, Nat.testBit_eq_decide_div_mod_eq,
    Nat.testBit_eq_decide_div_mod_eq, BitVec.toInt_eq_toNat_cond, decide_eq_false_iff_not,
    decide_eq_false_iff_not]
  split <;> omega

theorem region_eq_iff {v w : Word} :
    v.toNat / 2 ^ 28 = w.toNat / 2 ^ 28 ↔ ∀ i < 32, 28 ≤ i → v.getLsbD i = w.getLsbD i := by
  rw [← Nat.shiftRight_eq_div_pow, ← Nat.shiftRight_eq_div_pow, ← BitVec.toNat_ushiftRight,
    ← BitVec.toNat_ushiftRight, BitVec.toNat_inj, bits_iff]
  simp only [BitVec.getLsbD_ushiftRight]
  constructor
  · intro h i hi hlow
    have hbit := h (i - 28) (by omega)
    rwa [Nat.add_sub_cancel' hlow] at hbit
  · intro h i hi
    rcases Nat.lt_or_ge (28 + i) 32 with hin | hout
    · exact h _ hin (by omega)
    · rw [BitVec.getLsbD_of_ge _ _ hout, BitVec.getLsbD_of_ge _ _ hout]

theorem jump_reaches_iff {value pc : Word} :
    (∃ index : BitVec 26, jumpRegion pc ||| (index.setWidth 32 <<< 2) = value) ↔
      4 ∣ value.toInt ∧ value.toNat / 2 ^ 28 = (pc.toNat + 4) % 2 ^ 32 / 2 ^ 28 := by
  rw [← toNat_next, four_dvd_iff, region_eq_iff]
  constructor
  · rintro ⟨index, rfl⟩
    simp only [BitVec.getLsbD_or, getLsbD_jumpRegion, BitVec.getLsbD_shiftLeft,
      BitVec.getLsbD_setWidth]
    constructor
    · intro i hi
      have hregion : ¬28 ≤ i := by omega
      simp [hregion, hi]
    · intro i hi hhigh
      have hout : index.getLsbD (i - 2) = false := BitVec.getLsbD_of_ge _ _ (by omega)
      simp [hhigh, hi, hout]
  · rintro ⟨hlow, hhigh⟩
    refine ⟨value.extractLsb' 2 26, BitVec.eq_of_getLsbD_eq fun i hi => ?_⟩
    simp only [BitVec.getLsbD_or, getLsbD_jumpRegion, BitVec.getLsbD_shiftLeft,
      BitVec.getLsbD_setWidth, BitVec.getLsbD_extractLsb']
    grind

end Word

namespace Field

/-- The checks of a field are no more than its range. -/
theorem insert_isSome_iff_holds {f : Field} (hd : f.kind.Declares f.width)
    (hw : f.shift + f.width ≤ 32) {value pc : Word} :
    (f.insert value pc).isSome ↔ f.Holds pc value := by
  rw [insert_isSome_iff_bits hw]
  obtain ⟨kind, shift, width⟩ := f
  have half (bits : BitVec 16) : Word.signExtend16 (bits.setWidth 32) = bits.signExtend 32 := by
    rw [Word.signExtend16, BitVec.setWidth_setWidth_of_le _ (by decide), BitVec.setWidth_eq]
  cases kind with
  | register => exact Word.setWidth_reaches_iff (Nat.le_of_add_left_le hw)
  | immediate =>
    obtain rfl : width = 16 := hd
    simp only [FieldKind.operand, half]
    exact Word.signExtend_reaches_iff
  | branchOffset =>
    obtain rfl : width = 16 := hd
    simp only [FieldKind.operand, half, Holds, ← Word.toInt_sub_next]
    rw [← Word.distance_reaches_iff]
    refine exists_congr fun bits => ?_
    rw [BitVec.eq_sub_iff_add_eq, BitVec.add_comm]
  | jumpAddress =>
    obtain rfl : width = 26 := hd
    exact Word.jump_reaches_iff

end Field

namespace Template

theorem fill_isSome_iff {fs : List Field} (declared : ∀ f ∈ fs, f.kind.Declares f.width)
    (within : ∀ f ∈ fs, f.shift + f.width ≤ 32) {vs : List Word} {pc acc : Word} :
    (fill pc acc fs vs).isSome ↔ List.Forall₂ (·.Holds pc) fs vs := by
  induction fs generalizing vs acc with
  | nil => cases vs <;> simp [fill]
  | cons f fs ih =>
    cases vs with
    | nil => simp [fill]
    | cons v vs =>
      have hf : (f.insert v pc).isSome ↔ f.Holds pc v :=
        Field.insert_isSome_iff_holds (declared f List.mem_cons_self) (within f List.mem_cons_self)
      have hrest (bits : Word) : (fill pc bits fs vs).isSome ↔ List.Forall₂ (·.Holds pc) fs vs :=
        ih (fun g hg => declared g (List.mem_cons_of_mem _ hg))
          (fun g hg => within g (List.mem_cons_of_mem _ hg))
      rw [List.forall₂_cons, ← hf, fill]
      cases f.insert v pc with
      | none => simp
      | some bits => simpa using hrest (acc ||| bits)

/-- A template has a word for its operands exactly if there is one for each field and in its reach,
wherever the word stands. -/
theorem encode_isSome_iff {text : String} {t : Template} (h : parse text = .ok t)
    (operands : List Word) (pc : Word) :
    (t.encode operands pc).isSome ↔
      List.Forall₂ (fun f value => f.Holds pc value) t.fields operands :=
  fill_isSome_iff (declares_of_parse h) fun f hf => ((fills_of_parse h).within f hf).2

/-- From the last word of the address space a branch reaches 2 ^ 15 words back from address 0, and
not one more. -/
theorem encode_wrapped_branch :
    ∃ t, parse "000100 sssss ttttt branchoffset" = .ok t ∧
      (t.encode [31, 0, 0xFFFE0000] 0xFFFFFFFC).isSome ∧
        ¬(t.encode [31, 0, 0xFFFDFFFC] 0xFFFFFFFC).isSome := by
  have hparse : parse "000100 sssss ttttt branchoffset" =
      .ok ⟨0xFC000000, 0x10000000,
        [⟨.register, 21, 5⟩, ⟨.register, 16, 5⟩, ⟨.branchOffset, 0, 16⟩]⟩ := by
    decide +kernel
  refine ⟨_, hparse, ?_, ?_⟩
  · rw [encode_isSome_iff hparse]
    decide
  · rw [encode_isSome_iff hparse]
    decide

end Template

end MagicAssembly
