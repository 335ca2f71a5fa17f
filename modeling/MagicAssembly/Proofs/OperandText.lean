import MagicAssembly.Disassembly
import MagicAssembly.Proofs.WordBits
import MagicAssembly.Proofs.Words
import Std.Data.String.ToInt

namespace MagicAssembly

namespace Word

theorem decimal_chars {w : Word} {c : Char} (hc : c ∈ w.decimal.toList) : c = '-' ∨ c.isDigit := by
  have hdigits (n : Nat) (h : c ∈ n.repr.toList) : c.isDigit :=
    Nat.isDigit_of_mem_toDigits (by decide) (by decide) (Nat.toList_repr ▸ h)
  rw [decimal, Int.toString_eq_repr, Int.repr_eq_if] at hc
  split at hc
  · exact .inr (hdigits _ hc)
  · rw [String.toList_append, List.mem_append] at hc
    rcases hc with hc | hc
    · exact .inl (by simpa using hc)
    · exact .inr (hdigits _ hc)

theorem decimal_ne_empty (w : Word) : w.decimal.toList ≠ [] := by
  rw [decimal, Int.toString_eq_repr, Int.repr_eq_if]
  split
  · rw [Nat.toList_repr]
    exact Nat.toDigits_ne_nil
  · simp

theorem decimal_injective {v w : Word} (h : v.decimal = w.decimal) : v = w := by
  rw [decimal, decimal, Int.toString_eq_repr, Int.toString_eq_repr] at h
  exact BitVec.eq_of_toInt_eq (Int.repr_injective h)

theorem hex_toList (w : Word) :
    w.hex.toList = '0' :: 'x' :: w.nibbles.map fun d => d.toNat.digitChar := by
  simp [hex]

theorem hex_chars {w : Word} {c : Char} (hc : c ∈ w.hex.toList) :
    c = 'x' ∨ ∃ d : BitVec 4, c = d.toNat.digitChar := by
  rw [hex_toList] at hc
  rcases List.mem_cons.mp hc with rfl | hc
  · exact .inr ⟨0, rfl⟩
  rcases List.mem_cons.mp hc with rfl | hc
  · exact .inl rfl
  · obtain ⟨d, _, rfl⟩ := List.mem_map.mp hc
    exact .inr ⟨d, rfl⟩

theorem nibbles_injective {v w : Word} (h : v.nibbles = w.nibbles) : v = w := by
  apply BitVec.eq_of_getLsbD_eq
  intro i hi
  have hmem : i / 4 ∈ [7, 6, 5, 4, 3, 2, 1, 0] := by
    simp only [List.mem_cons, List.not_mem_nil]
    omega
  have hnibble := congrArg (BitVec.getLsbD · (i % 4)) (List.map_inj_left.mp h _ hmem)
  have hlt : i % 4 < 4 := Nat.mod_lt _ (by decide)
  simpa [BitVec.getLsbD_extractLsb', hlt, Nat.div_add_mod] using hnibble

theorem digitChar_injective :
    ∀ d e : BitVec 4, d.toNat.digitChar = e.toNat.digitChar → d = e := by
  decide

theorem hex_injective {v w : Word} (h : v.hex = w.hex) : v = w := by
  have htext := congrArg String.toList h
  rw [hex_toList, hex_toList, List.cons.injEq, List.cons.injEq] at htext
  exact nibbles_injective ((List.map_inj_right digitChar_injective).mp htext.2.2)

end Word

namespace Registers

theorem names_nodup : names.Nodup := by
  decide

theorem name_mem (r : Register) : name r ∈ names :=
  List.get_mem ..

theorem name_injective {q r : Register} (h : name q = name r) : q = r := by
  exact BitVec.eq_of_toNat_eq ((List.getElem_inj names_nodup).mp h)

end Registers

/-- Stands between the operands of an assembly line, or around one. -/
def dividesOperands (c : Char) : Bool :=
  c ∈ [' ', ',', '(', ')']

/-- Registers are written by name, immediates as numbers and targets as addresses. -/
inductive OperandStyle
  | name
  | number
  | address
  deriving DecidableEq

def FieldKind.style : FieldKind → OperandStyle
  | .register => .name
  | .immediate => .number
  | .branchOffset | .jumpAddress => .address

def OperandStyle.ofText (text : String) : OperandStyle :=
  if '$' ∈ text.toList then .name
  else if 'x' ∈ text.toList then .address
  else .number

theorem dividesOperands_digit {c : Char} (hc : c.isDigit) : dividesOperands c = false := by
  apply decide_eq_false
  intro hm
  simp only [List.mem_cons, List.not_mem_nil, or_false] at hm
  rcases hm with rfl | rfl | rfl | rfl <;> exact absurd hc (by decide)

theorem dividesOperands_nibble : ∀ d : BitVec 4, dividesOperands d.toNat.digitChar = false := by
  decide

namespace FieldKind

theorem operandText_isWord (kind : FieldKind) (value : Word) :
    Text.IsWord dividesOperands (kind.operandText value).toList := by
  cases kind with
  | register =>
    have hnames : ∀ t ∈ Registers.names, Text.IsWord dividesOperands t.toList := by decide
    exact hnames _ (Registers.name_mem _)
  | immediate =>
    refine ⟨value.decimal_ne_empty, ?_⟩
    intro c hc
    rcases Word.decimal_chars hc with rfl | hdigit
    · decide
    · exact dividesOperands_digit hdigit
  | branchOffset | jumpAddress =>
    refine ⟨by simp [operandText, Word.hex_toList], ?_⟩
    intro c hc
    rcases Word.hex_chars hc with rfl | ⟨d, rfl⟩
    · decide
    · exact dividesOperands_nibble d

/-- The text of an operand shows how it was written. -/
theorem ofText_operandText (kind : FieldKind) (value : Word) :
    OperandStyle.ofText (kind.operandText value) = kind.style := by
  cases kind with
  | register =>
    have hnames : ∀ t ∈ Registers.names, '$' ∈ t.toList := by decide
    exact if_pos (hnames _ (Registers.name_mem _))
  | immediate =>
    have habsent (k : Char) (hk : k ≠ '-' ∧ ¬k.isDigit) : k ∉ value.decimal.toList := by
      intro hm
      rcases Word.decimal_chars hm with rfl | hdigit
      · exact hk.1 rfl
      · exact hk.2 hdigit
    exact (if_neg (habsent '$' (by decide))).trans (if_neg (habsent 'x' (by decide)))
  | branchOffset | jumpAddress =>
    have hdollar : '$' ∉ value.hex.toList := by
      intro hm
      rcases Word.hex_chars hm with h | ⟨d, h⟩
      · cases h
      · revert d
        decide
    have hx : 'x' ∈ value.hex.toList := by simp [Word.hex_toList]
    exact (if_neg hdollar).trans (if_pos hx)

end FieldKind

end MagicAssembly
