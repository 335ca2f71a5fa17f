import Mathlib.Data.Set.Card
import MagicAssembly.Proofs.Session
import MagicAssembly.Proofs.StorageView

namespace MagicAssembly

namespace MemoryCall

/-- The address and the value of a store, unless it is refused. -/
def stores? : MemoryCall → Option (Word × Word)
  | .write address value =>
    if storeFault? address.toNat = none then some (address, value) else none
  | .preload address value =>
    if loadFault? address.toNat = none then some (address, value) else none
  | .read _ | .clear => none

/-- One of the calls stored the value at the address, and the memory was not cleared after it. -/
def Stored (cs : List MemoryCall) (address value : Word) : Prop :=
  ∃ before c after, cs = before ++ c :: after ∧ c.stores? = some (address, value) ∧ .clear ∉ after

/-- Nor was anything stored there after it. -/
def LastStored (cs : List MemoryCall) (address value : Word) : Prop :=
  ∃ before c after, cs = before ++ c :: after ∧ c.stores? = some (address, value) ∧
    .clear ∉ after ∧ ∀ d ∈ after, ∀ v, d.stores? ≠ some (address, v)

/-- A call is the last one or has that one behind it. -/
theorem exists_split_concat {cs : List MemoryCall} {last : MemoryCall}
    {P : MemoryCall → List MemoryCall → Prop} :
    (∃ before c after, cs ++ [last] = before ++ c :: after ∧ P c after) ↔
      P last [] ∨ ∃ before c after, cs = before ++ c :: after ∧ P c (after ++ [last]) := by
  constructor
  · rintro ⟨before, c, after, hsplit, hP⟩
    rcases List.eq_nil_or_concat' after with rfl | ⟨after, d, rfl⟩
    · obtain ⟨rfl, rfl⟩ := List.append_singleton_inj.mp hsplit
      exact .inl hP
    · rw [← List.cons_append, ← List.append_assoc] at hsplit
      obtain ⟨rfl, rfl⟩ := List.append_singleton_inj.mp hsplit
      exact .inr ⟨before, c, after, rfl, hP⟩
  · rintro (hP | ⟨before, c, after, rfl, hP⟩)
    · exact ⟨cs, last, [], rfl, hP⟩
    · exact ⟨before, c, after ++ [last], by simp, hP⟩

section

variable {cs : List MemoryCall} {c : MemoryCall} {a v : Word}

theorem stored_concat :
    Stored (cs ++ [c]) a v ↔ c.stores? = some (a, v) ∨ c ≠ .clear ∧ Stored cs a v := by
  unfold Stored
  rw [exists_split_concat]
  simp only [List.not_mem_nil, not_false_eq_true, List.mem_append, List.mem_singleton, not_or]
  grind

theorem lastStored_concat :
    LastStored (cs ++ [c]) a v ↔ c.stores? = some (a, v) ∨
      c ≠ .clear ∧ (∀ w, c.stores? ≠ some (a, w)) ∧ LastStored cs a v := by
  unfold LastStored
  rw [exists_split_concat]
  simp only [List.not_mem_nil, not_false_eq_true, List.mem_append, List.mem_singleton, not_or]
  grind

/-- Of the stores to an address one is the last. -/
theorem exists_lastStored_iff : (∃ v, LastStored cs a v) ↔ ∃ v, Stored cs a v := by
  induction cs using List.reverseRecOn with
  | nil => simp [LastStored, Stored]
  | append_singleton cs c ih =>
    simp only [stored_concat, lastStored_concat, exists_or, exists_and_left, ih]
    grind

end

end MemoryCall

namespace Memory

theorem read_eq (m : Memory) (a : Word) :
    m.read a =
      match loadFault? a.toNat with
      | some cause => .error ⟨a, cause⟩
      | none => .ok (m.get a) := by
  rw [read, checkRead_eq]
  cases loadFault? a.toNat <;> rfl

theorem preload_eq (m : Memory) (a v : Word) :
    m.preload a v =
      match loadFault? a.toNat with
      | some cause => .error ⟨a, cause⟩
      | none => .ok (m.put a v) := by
  rw [preload, checkRead_eq]
  cases loadFault? a.toNat <;> rfl

theorem write_eq (m : Memory) (a v : Word) :
    m.write a v =
      match storeFault? a.toNat with
      | some cause => .error ⟨a, cause⟩
      | none => .ok (m.put a v) := by
  rw [write, checkWrite_eq]
  cases storeFault? a.toNat <;> rfl

/-- Clearing apart, a call does no more than its store. -/
theorem call_eq {c : MemoryCall} (h : c ≠ .clear) (m : Memory) :
    m.call c =
      match c.stores? with
      | some (a, v) => m.put a v
      | none => m := by
  cases c with
  | read a => rfl
  | clear => exact absurd rfl h
  | write a v =>
    simp only [call, write_eq, MemoryCall.stores?]
    cases storeFault? a.toNat <;> rfl
  | preload a v =>
    simp only [call, preload_eq, MemoryCall.stores?]
    cases loadFault? a.toNat <;> rfl

theorem find_call {m : Memory} {c : MemoryCall} {a v : Word} :
    (m.call c).find? a = some v ↔ c.stores? = some (a, v) ∨
      c ≠ .clear ∧ (∀ w, c.stores? ≠ some (a, w)) ∧ m.find? a = some v := by
  by_cases hclear : c = .clear
  · subst hclear
    simp [call, find_empty, MemoryCall.stores?]
  · rw [call_eq hclear]
    cases c.stores? with
    | none => simp [hclear]
    | some store =>
      obtain ⟨b, w⟩ := store
      rw [find_put]
      by_cases hab : a = b
      · subst hab
        simp
      · simp [hab, hclear, Ne.symm hab]

/-- The memory after all the calls, in order. -/
def calls (m : Memory) (cs : List MemoryCall) : Memory :=
  cs.foldl call m

theorem find_calls {cs : List MemoryCall} {a v : Word} :
    (empty.calls cs).find? a = some v ↔ MemoryCall.LastStored cs a v := by
  induction cs using List.reverseRecOn with
  | nil => simp [calls, find_empty, MemoryCall.LastStored]
  | append_singleton cs c ih =>
    rw [calls, List.foldl_append, MemoryCall.lastStored_concat, ← ih]
    exact find_call

/-- The addresses that a word is kept for. -/
def addresses (m : Memory) : Set Word :=
  {a | ∃ v, m.find? a = some v}

theorem addresses_empty : empty.addresses = ∅ := by
  simp [addresses, find_empty]

theorem addresses_put (m : Memory) (a v : Word) :
    (m.put a v).addresses = insert a m.addresses := by
  ext b
  simp only [addresses, Set.mem_ofPred_eq, Set.mem_insert_iff, find_put]
  by_cases hb : b = a <;> simp [hb]

theorem addresses_finite (s : Set Word) : s.Finite :=
  have : Finite Word := Finite.of_injective BitVec.toFin fun _ _ => BitVec.eq_of_toFin_eq
  Set.toFinite s

/-- A memory keeps one word for each address where it finds one. -/
theorem size_eq (m : Memory) : m.size = m.addresses.ncard := by
  obtain ⟨stored⟩ := m
  simp only [size, addresses, find?]
  induction hn : stored.size generalizing stored with
  | zero =>
    obtain rfl := Std.ExtHashMap.eq_empty_iff_size_eq_zero.mpr hn
    simp
  | succ n ih =>
    have hne : ¬stored = ∅ := by
      rw [Std.ExtHashMap.eq_empty_iff_size_eq_zero, hn]
      exact Nat.succ_ne_zero n
    obtain ⟨a, ha⟩ : ∃ a, a ∈ stored := by
      simpa [Std.ExtHashMap.eq_empty_iff_forall_not_mem] using hne
    have hrest : (stored.erase a).size = n := by
      rw [Std.ExtHashMap.size_erase, if_pos ha, hn, Nat.add_sub_cancel]
    obtain ⟨w, hw⟩ := Option.isSome_iff_exists.mp (Std.ExtHashMap.mem_iff_isSome_getElem?.mp ha)
    have hsplit : {b | ∃ v, stored[b]? = some v} =
        insert a {b | ∃ v, (stored.erase a)[b]? = some v} := by
      ext b
      simp only [Set.mem_ofPred_eq, Set.mem_insert_iff, Std.ExtHashMap.getElem?_erase, beq_iff_eq]
      grind
    rw [hsplit, Set.ncard_insert_of_notMem (by simp) (addresses_finite _), ← ih _ hrest]

/-- A memory is a map from the addresses that may be read to words, all 0 at first. Where it refuses
a call it says why, and stays as it is. -/
theorem refines_map (cs : List MemoryCall) :
    let m := empty.calls cs
    (∀ a,
      match loadFault? a.toNat with
      | some cause => m.read a = .error ⟨a, cause⟩
      | none => ∃ v, m.read a = .ok v ∧
        (MemoryCall.LastStored cs a v ∨ v = 0 ∧ ∀ w, ¬MemoryCall.Stored cs a w)) ∧
    (∀ a v,
      match loadFault? a.toNat with
      | some cause => m.preload a v = .error ⟨a, cause⟩ ∧ m.call (.preload a v) = m
      | none => m.preload a v = .ok (m.call (.preload a v))) ∧
    (∀ a v,
      match storeFault? a.toNat with
      | some cause => m.write a v = .error ⟨a, cause⟩ ∧ m.call (.write a v) = m
      | none => m.write a v = .ok (m.call (.write a v))) ∧
    (∀ a, m.call (.read a) = m) ∧
    m.size = {a | ∃ v, MemoryCall.Stored cs a v}.ncard := by
  intro m
  have hfind {a v : Word} : m.find? a = some v ↔ MemoryCall.LastStored cs a v := find_calls
  refine ⟨?_, ?_, ?_, fun _ => rfl, ?_⟩
  · intro a
    rw [read_eq]
    cases loadFault? a.toNat with
    | some cause => rfl
    | none =>
      refine ⟨m.get a, rfl, ?_⟩
      unfold get
      cases ha : m.find? a with
      | some v => exact .inl (hfind.mp ha)
      | none =>
        refine .inr ⟨rfl, fun w hw => ?_⟩
        obtain ⟨v, hv⟩ := MemoryCall.exists_lastStored_iff.mpr ⟨w, hw⟩
        cases ha.symm.trans (hfind.mpr hv)
  · intro a v
    simp only [call, preload_eq]
    cases loadFault? a.toNat with
    | some cause => exact ⟨rfl, rfl⟩
    | none => rfl
  · intro a v
    simp only [call, write_eq]
    cases storeFault? a.toNat with
    | some cause => exact ⟨rfl, rfl⟩
    | none => rfl
  · rw [size_eq]
    simp only [addresses, hfind, MemoryCall.exists_lastStored_iff]

end Memory

end MagicAssembly
