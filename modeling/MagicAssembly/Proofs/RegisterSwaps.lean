import Mathlib.Algebra.BigOperators.Group.List.Basic
import Mathlib.Algebra.Group.End
import MagicAssembly.Proofs.StorageView

namespace MagicAssembly

/-- The register each value comes from once the pairs have been swapped in order. -/
def sources (pairs : List (Register × Register)) : Equiv.Perm Register :=
  (pairs.map fun p => Equiv.swap p.1 p.2).prod

theorem sources_cons (p : Register × Register) (pairs : List (Register × Register)) :
    sources (p :: pairs) = Equiv.swap p.1 p.2 * sources pairs :=
  List.prod_cons

/-- Swapping in the reverse order leads back. -/
theorem sources_reverse (pairs : List (Register × Register)) :
    sources pairs.reverse = (sources pairs)⁻¹ := by
  have hself : (fun p : Register × Register => (Equiv.swap p.1 p.2)⁻¹) =
      fun p => Equiv.swap p.1 p.2 :=
    funext fun p => Equiv.swap_inv p.1 p.2
  rw [sources, sources, List.prod_inv_reverse, List.map_map, Function.comp_def, hself,
    List.map_reverse]

theorem sources_of_unnamed {pairs : List (Register × Register)} {r : Register}
    (h : ∀ p ∈ pairs, r ≠ p.1 ∧ r ≠ p.2) : sources pairs r = r := by
  induction pairs with
  | nil => rfl
  | cons p pairs ih =>
    obtain ⟨h₁, h₂⟩ := h p List.mem_cons_self
    have hrest := ih fun q hq => h q (List.mem_cons_of_mem p hq)
    rw [sources_cons, Equiv.Perm.mul_apply, hrest, Equiv.swap_apply_of_ne_of_ne h₁ h₂]

namespace Storage

/-- The memory is the same, and each register holds what its source held. -/
structure Rearranged (source : Equiv.Perm Register) (s t : Storage) : Prop where
  memory : t.memory = s.memory
  register (r : Register) : t.get r = s.get (source r)

namespace Rearranged

variable {σ τ : Equiv.Perm Register} {s t u : Storage}

theorem refl (s : Storage) : Rearranged 1 s s :=
  ⟨rfl, fun _ => rfl⟩

theorem trans (h : Rearranged σ s t) (h' : Rearranged τ t u) : Rearranged (σ * τ) s u :=
  ⟨h'.memory.trans h.memory, fun r => (h'.register r).trans (h.register (τ r))⟩

theorem eq (h : Rearranged 1 s t) : t = s := by
  apply view_injective
  rw [view, view, h.memory, View.mk.injEq]
  exact ⟨funext h.register, rfl⟩

end Rearranged

end Storage

namespace Instruction

/-- The swap of two registers, with the operands its word is decoded to. -/
def swapOf (tokens : List String) (p : Register × Register) : Instruction :=
  .ofOperands .swap ⟨[p.1.setWidth 32, p.2.setWidth 32], by simp [maxOperands]⟩ tokens

theorem swapOf_eq (tokens : List String) (p : Register × Register) :
    swapOf tokens p = .swap p.1 p.2 := by
  have hregister (r : Register) : (r.setWidth 32).setWidth 5 = r :=
    BitVec.setWidth_setWidth_of_le r (by decide)
  change Instruction.swap ((p.1.setWidth 32).setWidth 5) ((p.2.setWidth 32).setWidth 5) = _
  rw [hregister, hregister]

/-- Carries out the instructions in turn, each on what the ones before it left. -/
def executeAll (labels : Labels) : List Instruction → Storage →
    List (Except Fault Control) × Storage
  | [], s => ([], s)
  | i :: is, s =>
    let (result, s') := i.execute labels s
    let (results, t) := executeAll labels is s'
    (result :: results, t)

section

variable (labels : Labels) (tokens : List String)

/-- Both registers are read before one is written, so no value is lost. -/
theorem execute_swapOf (s : Storage) {p : Register × Register} (h : p.1 ≠ 0 ∧ p.2 ≠ 0) :
    ∃ t, (swapOf tokens p).execute labels s = (.ok .sequential, t) ∧
      s.Rearranged (Equiv.swap p.1 p.2) t := by
  obtain ⟨a, b⟩ := p
  obtain ⟨ha, hb⟩ := h
  refine ⟨s.commit [.register a (s.get b), .register b (s.get a)], ?_, rfl, fun r => ?_⟩
  · rw [swapOf_eq]
    rfl
  · simp only [Storage.commit, List.foldl_cons, List.foldl_nil, Storage.get_eq,
      Storage.view_write_register, View.assign, Equiv.swap_apply_def]
    grind

theorem executeAll_swapOf (s : Storage) {pairs : List (Register × Register)}
    (h : ∀ p ∈ pairs, p.1 ≠ 0 ∧ p.2 ≠ 0) :
    ∃ t, executeAll labels (pairs.map (swapOf tokens)) s =
        (.replicate pairs.length (.ok .sequential), t) ∧ s.Rearranged (sources pairs) t := by
  induction pairs generalizing s with
  | nil => exact ⟨s, rfl, .refl s⟩
  | cons p pairs ih =>
    obtain ⟨t, hfirst, hst⟩ := execute_swapOf labels tokens s (h p List.mem_cons_self)
    obtain ⟨u, hrest, htu⟩ := ih t fun q hq => h q (List.mem_cons_of_mem p hq)
    refine ⟨u, ?_, sources_cons p pairs ▸ hst.trans htu⟩
    simp only [List.map_cons, executeAll, hfirst, hrest, List.length_cons, List.replicate_succ]

/-- Swaps of registers other than register 0 never fault. They move values to other registers and
lose none, and the same swaps in the reverse order bring all of them back. -/
theorem swaps_reversible (s : Storage) {pairs : List (Register × Register)}
    (nonzero : ∀ p ∈ pairs, p.1 ≠ 0 ∧ p.2 ≠ 0) :
    ∃ t,
      executeAll labels (pairs.map (swapOf tokens)) s =
        (.replicate pairs.length (.ok .sequential), t) ∧
      (∀ r, t.get r = s.get (sources pairs r)) ∧
      sources pairs 0 = 0 ∧
      (∀ r, (∀ p ∈ pairs, r ≠ p.1 ∧ r ≠ p.2) → t.get r = s.get r) ∧
      t.memory = s.memory ∧
      executeAll labels (pairs.reverse.map (swapOf tokens)) t =
        (.replicate pairs.length (.ok .sequential), s) := by
  obtain ⟨t, hthere, hst⟩ := executeAll_swapOf labels tokens s nonzero
  have hreverse : ∀ p ∈ pairs.reverse, p.1 ≠ 0 ∧ p.2 ≠ 0 :=
    fun p hp => nonzero p (List.mem_reverse.mp hp)
  obtain ⟨u, hback, htu⟩ := executeAll_swapOf labels tokens t hreverse
  have hzero : sources pairs 0 = 0 :=
    sources_of_unnamed fun p hp => ⟨(nonzero p hp).1.symm, (nonzero p hp).2.symm⟩
  have hsu : s.Rearranged 1 u := by
    have h := hst.trans htu
    rwa [sources_reverse, mul_inv_cancel] at h
  rw [List.length_reverse, hsu.eq] at hback
  refine ⟨t, hthere, hst.register, hzero, fun r hr => ?_, hst.memory, hback⟩
  rw [hst.register, sources_of_unnamed hr]

end

/-- Three swaps that name `$t1` more than once, the last of them twice. -/
def rotation : List (Register × Register) :=
  [(8, 9), (9, 10), (9, 9)]

/-- Storage with 1, 2 and 3 in `$t0`, `$t1` and `$t2`. -/
def countedRegisters : Storage :=
  ⟨((Registers.default.set 8 1).set 9 2).set 10 3, .empty⟩

/-- They carry the three values round in a circle, and back. -/
theorem rotation_reversible :
    (∀ p ∈ rotation, p.1 ≠ 0 ∧ p.2 ≠ 0) ∧
      ∃ t,
        executeAll .empty (rotation.map (swapOf [])) countedRegisters =
          (.replicate 3 (.ok .sequential), t) ∧
        t.get 8 = 2 ∧ t.get 9 = 3 ∧ t.get 10 = 1 ∧
        executeAll .empty (rotation.reverse.map (swapOf [])) t =
          (.replicate 3 (.ok .sequential), countedRegisters) := by
  have hnonzero : ∀ p ∈ rotation, p.1 ≠ 0 ∧ p.2 ≠ 0 := by simp [rotation]
  obtain ⟨t, hthere, hget, -, -, -, hback⟩ :=
    swaps_reversible .empty [] countedRegisters hnonzero
  exact ⟨hnonzero, t, hthere, hget 8, hget 9, hget 10, hback⟩

end Instruction

end MagicAssembly
