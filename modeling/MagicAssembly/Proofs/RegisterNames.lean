import Mathlib.Data.List.Induction
import Mathlib.Data.Nat.Digits.Defs
import MagicAssembly.Proofs.OperandText

namespace MagicAssembly.Registers

def digitValue (c : Char) : Nat :=
  c.toNat - '0'.toNat

/-- The text writes the number in decimal. Zeros in front do not count. -/
structure Numeral (text : List Char) (n : Nat) : Prop where
  nonempty : text ≠ []
  digits : ∀ c ∈ text, c.isDigit
  value : Nat.ofDigits 10 (text.reverse.map digitValue) = n

/-- The register whose number follows `$`, as `number?` reads it. -/
def numbered? (number? : List Char → Option Nat) (text : String) : Option Nat :=
  match text.toList with
  | '$' :: number => (number? number).filter (· < registerCount)
  | _ => none

/-- The register that the text stands for if `number?` reads the numbers. -/
def indexBy? (number? : List Char → Option Nat) (text : String) : Option Nat :=
  match names.idxOf? text with
  | some index => some index
  | none => if text = "$s8" then some 30 else numbered? number? text

/-- One digit more, if the number stays below the limit. -/
def appendDigit? (limit value : Nat) (c : Char) : Option Nat :=
  if c.isDigit ∧ 10 * value + digitValue c < limit then some (10 * value + digitValue c) else none

def digitsBelow? (limit : Nat) (text : List Char) : Option Nat :=
  if text = [] then none else text.foldlM (appendDigit? limit) 0

/-- A number as a machine reads it whose words hold only what is below the limit. -/
def numberBelow? (limit : Nat) : List Char → Option Nat
  | '+' :: digits => digitsBelow? limit digits
  | digits => digitsBelow? limit digits

theorem index_eq (text : String) : index? text = indexBy? number? text :=
  rfl

theorem digitsValue_concat (text : List Char) (c : Char) :
    digitsValue (text ++ [c]) = 10 * digitsValue text + digitValue c :=
  List.foldl_append

theorem digitsValue_eq (text : List Char) :
    digitsValue text = Nat.ofDigits 10 (text.reverse.map digitValue) := by
  induction text using List.reverseRecOn with
  | nil => rfl
  | append_singleton text c ih =>
    rw [digitsValue_concat, ih, List.reverse_concat, List.map_cons, Nat.ofDigits_cons]
    exact Nat.add_comm ..

section

variable {text : List Char} {n : Nat}

theorem digits_eq_some_iff : digits? text = some n ↔ Numeral text n := by
  simp only [digits?, Option.ite_none_right_eq_some, List.all_eq_true, Option.some.injEq,
    digitsValue_eq]
  exact ⟨fun h => ⟨h.1.1, h.1.2, h.2⟩, fun h => ⟨⟨h.nonempty, h.digits⟩, h.value⟩⟩

theorem Numeral.head_ne_plus (h : Numeral text n) (digits : List Char) : text ≠ '+' :: digits := by
  rintro rfl
  exact absurd (h.digits '+' List.mem_cons_self) (by decide)

theorem number_eq_some_iff :
    number? text = some n ↔ Numeral text n ∨ ∃ digits, text = '+' :: digits ∧ Numeral digits n := by
  fun_cases number? text with
  | case1 digits =>
    rw [digits_eq_some_iff]
    constructor
    · exact fun h => .inr ⟨digits, rfl, h⟩
    · rintro (h | ⟨_, htext, h⟩)
      · exact absurd rfl (h.head_ne_plus digits)
      · cases htext
        exact h
  | case2 _ hsign =>
    rw [digits_eq_some_iff]
    exact ⟨.inl, fun h => h.resolve_right fun ⟨digits, heq, _⟩ => hsign digits heq⟩

/-- Later digits only make a number larger, so it is too large at the end if it ever is. -/
theorem foldlM_appendDigit {limit : Nat} (positive : 0 < limit) :
    text.foldlM (appendDigit? limit) 0 = some n ↔
      (∀ c ∈ text, c.isDigit) ∧ digitsValue text = n ∧ n < limit := by
  induction text using List.reverseRecOn generalizing n with
  | nil =>
    have hzero : digitsValue [] = 0 := rfl
    rw [List.foldlM_nil, hzero, Option.pure_def, Option.some.injEq]
    grind
  | append_singleton text c ih =>
    rw [List.foldlM_append, digitsValue_concat]
    simp only [List.foldlM_cons, List.foldlM_nil, bind_pure, Option.bind_eq_bind,
      Option.bind_eq_some_iff, ih, appendDigit?, Option.ite_none_right_eq_some, Option.some.injEq,
      List.mem_append, List.mem_singleton]
    grind

theorem digitsBelow_eq {limit : Nat} (positive : 0 < limit) :
    digitsBelow? limit text = (digits? text).filter (· < limit) := by
  ext n
  simp only [digitsBelow?, Option.ite_none_left_eq_some, foldlM_appendDigit positive,
    Option.filter_eq_some_iff, digits?, Option.ite_none_right_eq_some, List.all_eq_true,
    Option.some.injEq, decide_eq_true_eq]
  grind

theorem numberBelow_eq {limit : Nat} (positive : 0 < limit) :
    numberBelow? limit text = (number? text).filter (· < limit) := by
  fun_cases number? text with
  | case1 digits => exact digitsBelow_eq positive
  | case2 _ hsign =>
    rw [numberBelow?.eq_2 _ _ hsign]
    exact digitsBelow_eq positive

end

section

variable {text : String} {i : Nat}

theorem idxOf_names_eq_some_iff : names.idxOf? text = some i ↔ names[i]? = some text := by
  rw [List.idxOf?_eq_some_iff, List.getElem?_eq_some_iff]
  constructor
  · rintro ⟨hi, htext, _⟩
    exact ⟨hi, htext⟩
  · rintro ⟨hi, rfl⟩
    refine ⟨hi, rfl, fun j hj => ?_⟩
    rw [List.getElem_inj names_nodup]
    exact Nat.ne_of_lt hj

/-- No name begins like a number. -/
theorem number_of_name : ∀ t ∈ "$s8" :: names, number? t.toList.tail = none := by
  decide

theorem numbered_eq_some_iff : numbered? number? text = some i ↔
    i < registerCount ∧ ∃ number, text.toList = '$' :: number ∧ number? number = some i := by
  unfold numbered?
  split
  · next number htext => simp [Option.filter_eq_some_iff, htext, and_comm]
  · next hother => simpa using fun _ number h => absurd h (hother number)

theorem index_eq_some_iff_number : index? text = some i ↔
    names[i]? = some text ∨ text = "$s8" ∧ i = 30 ∨
      i < registerCount ∧ ∃ number, text.toList = '$' :: number ∧ number? number = some i := by
  have hnumber (hname : text ∈ "$s8" :: names) :
      ¬∃ number, text.toList = '$' :: number ∧ number? number = some i := by
    rintro ⟨number, htext, hread⟩
    have hnone := number_of_name text hname
    rw [htext, List.tail_cons, hread] at hnone
    cases hnone
  rw [index_eq]
  unfold indexBy?
  cases hname : names.idxOf? text with
  | some j =>
    have hj := idxOf_names_eq_some_iff.mp hname
    have hmem : text ∈ names := List.mem_of_getElem? hj
    constructor
    · intro h
      cases h
      exact .inl hj
    · rintro (hi | ⟨rfl, _⟩ | ⟨_, hread⟩)
      · exact hname.symm.trans (idxOf_names_eq_some_iff.mpr hi)
      · exact absurd hmem (by decide)
      · exact absurd hread (hnumber (List.mem_cons_of_mem _ hmem))
  | none =>
    have hnot : names[i]? ≠ some text := by
      intro h
      cases hname.symm.trans (idxOf_names_eq_some_iff.mpr h)
    dsimp only
    split
    · next h =>
      subst h
      constructor
      · intro h
        exact .inr (.inl ⟨rfl, (Option.some.inj h).symm⟩)
      · rintro (h | ⟨_, rfl⟩ | ⟨_, hread⟩)
        · exact absurd h hnot
        · rfl
        · exact absurd hread (hnumber List.mem_cons_self)
    · next h =>
      rw [numbered_eq_some_iff]
      refine ⟨fun hread => .inr (.inr hread), fun hor => ?_⟩
      exact (hor.resolve_left hnot).resolve_left fun hs8 => h hs8.1

/-- Whether large numbers overflow makes no difference. -/
theorem indexBy_numberBelow {limit : Nat} (h : registerCount ≤ limit) :
    indexBy? (numberBelow? limit) text = index? text := by
  have hpositive : 0 < limit := Nat.lt_of_lt_of_le (by decide) h
  have hfilter (number : List Char) : (numberBelow? limit number).filter (· < registerCount) =
      (number? number).filter (· < registerCount) := by
    rw [numberBelow_eq hpositive, Option.filter_filter]
    refine congrArg (Option.filter · _) (funext fun n => ?_)
    grind
  simp only [index_eq, indexBy?, numbered?, hfilter]

end

/-- A register is known by its name, the frame pointer by a second one, and every register by its
number, in decimal behind `$` and at most one plus sign. How large the numbers are that a machine
word holds does not matter. -/
theorem index_eq_some_iff (text : String) :
    (∀ i, index? text = some i ↔
      names[i]? = some text ∨ text = "$s8" ∧ i = 30 ∨
        i < registerCount ∧ ∃ digits, Numeral digits i ∧
          (text.toList = '$' :: digits ∨ text.toList = '$' :: '+' :: digits)) ∧
    ∀ limit, registerCount ≤ limit → indexBy? (numberBelow? limit) text = index? text := by
  refine ⟨fun i => ?_, fun limit => indexBy_numberBelow⟩
  rw [index_eq_some_iff_number]
  refine or_congr_right (or_congr_right (and_congr_right fun _ => ?_))
  simp only [number_eq_some_iff]
  constructor
  · rintro ⟨number, htext, hnumeral | ⟨digits, rfl, hnumeral⟩⟩
    · exact ⟨number, hnumeral, .inl htext⟩
    · exact ⟨digits, hnumeral, .inr htext⟩
  · rintro ⟨digits, hnumeral, htext | htext⟩
    · exact ⟨digits, htext, .inl hnumeral⟩
    · exact ⟨'+' :: digits, htext, .inr ⟨digits, rfl, hnumeral⟩⟩

/-- Zeros in front are no part of the number, and a number too large for a machine word is not taken
for a small one. -/
theorem index_sevens :
    index? "$007" = some 7 ∧ registerCount ≤ 2 ^ 64 ∧
      indexBy? (numberBelow? (2 ^ 64)) "$18446744073709551623" = none := by
  have hseven : Numeral ['0', '0', '7'] 7 := ⟨by simp, by simp, rfl⟩
  have hword : registerCount ≤ 2 ^ 64 := by decide
  have hlarge : index? "$18446744073709551623" = none := by decide
  exact ⟨((index_eq_some_iff _).1 7).mpr (.inr (.inr ⟨by decide, _, hseven, .inl rfl⟩)), hword,
    ((index_eq_some_iff _).2 _ hword).trans hlarge⟩

/-- So it is not only digits that may follow `$`. -/
theorem plusFive_accepted :
    ¬∀ text i, index? text = some i ↔
      names[i]? = some text ∨ text = "$s8" ∧ i = 30 ∨
        i < registerCount ∧ ∃ digits, Numeral digits i ∧ text.toList = '$' :: digits := by
  intro h
  have hfive : index? "$+5" = some 5 := by decide
  rcases (h _ _).mp hfive with hname | ⟨hs8, _⟩ | ⟨_, digits, hnumeral, htext⟩
  · exact absurd hname (by decide)
  · exact absurd hs8 (by decide)
  · have hplus : ['+', '5'] = digits := (List.cons.inj htext).2
    exact hnumeral.head_ne_plus ['5'] hplus.symm

end MagicAssembly.Registers
