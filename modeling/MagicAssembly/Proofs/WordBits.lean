import MagicAssembly.Word

namespace MagicAssembly.Word

theorem bits_iff {x y : Word} : x = y ↔ ∀ i < 32, x.getLsbD i = y.getLsbD i := by
  constructor
  · intro h i _
    rw [h]
  · exact BitVec.eq_of_getLsbD_eq

theorem and_of_inside {bits mask : Word} (h : bits &&& ~~~mask = 0) : bits &&& mask = bits := by
  simp only [bits_iff, BitVec.getLsbD_and, BitVec.getLsbD_not] at *
  grind

theorem or_inside {a b m k : Word} (ha : a &&& ~~~m = 0) (hb : b &&& ~~~k = 0) :
    (a ||| b) &&& ~~~(m ||| k) = 0 := by
  simp only [bits_iff, BitVec.getLsbD_and, BitVec.getLsbD_or, BitVec.getLsbD_not] at *
  grind

theorem or_apart {a b mask : Word} (ha : a &&& mask = 0) (hb : b &&& mask = 0) :
    (a ||| b) &&& mask = 0 := by
  rw [BitVec.and_or_distrib_right, ha, hb]
  rfl

/-- A word with no bit outside a mask is known by its bits inside. -/
theorem eq_iff_inside {bits mask w : Word} (h : bits &&& ~~~mask = 0) :
    bits = w ↔ w &&& ~~~mask = 0 ∧ w &&& mask = bits := by
  constructor
  · rintro rfl
    exact ⟨h, and_of_inside h⟩
  · rintro ⟨hw, hbits⟩
    rw [← hbits, and_of_inside hw]

theorem add_sub_left (x y : Word) : x + y - x = y := by
  rw [BitVec.add_comm, BitVec.add_sub_cancel]

/-- The lowest `n` bits of a word, or all of them. -/
def low (n : Nat) : Word :=
  (BitVec.allOnes n).setWidth 32

@[simp] theorem getLsbD_low (n i : Nat) : (low n).getLsbD i = decide (i < 32 ∧ i < n) := by
  rw [low, BitVec.getLsbD_setWidth, BitVec.getLsbD_allOnes, Bool.decide_and]

theorem low_full : low 32 = BitVec.allOnes 32 := by
  decide

theorem getLsbD_one_shiftLeft {n : Nat} (hn : n < 32) (i : Nat) :
    ((1 : Word) <<< n).getLsbD i = decide (i = n) := by
  rw [BitVec.getLsbD_shiftLeft]
  change (_ && (1#32).getLsbD (i - n)) = _
  rw [BitVec.getLsbD_one]
  grind

/-- Above bit 15 every bit is a copy of bit 15. -/
theorem getLsbD_signExtend16 (w : Word) (i : Nat) :
    w.signExtend16.getLsbD i = (decide (i < 32) && w.getLsbD (min i 15)) := by
  simp only [signExtend16, BitVec.getLsbD_signExtend, BitVec.msb_setWidth, BitVec.getLsbD_setWidth]
  rcases Nat.lt_or_ge i 16 with hi | hi
  · have hm : min i 15 = i := by omega
    simp [hi, hm]
  · have hm : min i 15 = 15 := by omega
    simp [Nat.not_lt.mpr hi, hm]

end MagicAssembly.Word
