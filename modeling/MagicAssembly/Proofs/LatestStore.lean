import MagicAssembly.Proofs.CatalogDisjoint
import MagicAssembly.Proofs.MemoryAccess
import MagicAssembly.Proofs.Placement
import MagicAssembly.Proofs.Session

namespace MagicAssembly

namespace Machine

/-- After `k` steps a store of the register to `address` retired, and after it and before step `n`
no other one did. -/
structure LatestStore (start : Machine) (n : Nat) (address : Word) (k : Nat) (r : Register) :
    Prop where
  earlier : k < n
  stores : (after attempt k start).Accesses .implant address r
  last : ∀ j, k < j → j < n → ∀ q, ¬(after attempt j start).Accesses .implant address q

/-- No store to `address` retired in the first `n` steps. -/
def NeverStores (start : Machine) (n : Nat) (address : Word) : Prop :=
  ∀ k < n, ∀ r, ¬(after attempt k start).Accesses .implant address r

/-- What the first `n` steps leave at an address: the register of the latest store there, as it was
then; without one the word that loading placed there; and 0 without that. -/
inductive Latest (start : Machine) (n : Nat) (address : Word) : Word → Prop
  | stored {k : Nat} {r : Register} (store : start.LatestStore n address k r) :
      Latest start n address ((after attempt k start).storage.get r)
  | placed {word : Word} (never : start.NeverStores n address)
      (place : Placed start.config start.program address word) : Latest start n address word
  | untouched (never : start.NeverStores n address)
      (empty : ∀ word, ¬Placed start.config start.program address word) : Latest start n address 0

theorem NeverStores.succ {start : Machine} {n : Nat} {address : Word}
    (h : start.NeverStores n address)
    (hn : ∀ r, ¬(after attempt n start).Accesses .implant address r) :
    start.NeverStores (n + 1) address := by
  intro k hk
  rcases Nat.lt_succ_iff_lt_or_eq.mp hk with hlt | rfl
  · exact h k hlt
  · exact hn

theorem Latest.succ {start : Machine} {n : Nat} {address word : Word}
    (h : start.Latest n address word)
    (hn : ∀ r, ¬(after attempt n start).Accesses .implant address r) :
    start.Latest (n + 1) address word := by
  cases h with
  | @stored k r store =>
    refine .stored ⟨Nat.lt_succ_of_lt store.earlier, store.stores, ?_⟩
    intro j hkj hj
    rcases Nat.lt_succ_iff_lt_or_eq.mp hj with hlt | rfl
    · exact store.last j hkj hlt
    · exact hn
  | placed never place => exact .placed (never.succ hn) place
  | untouched never empty => exact .untouched (never.succ hn) empty

def accessCatalog : Catalog :=
  (Catalog.empty.offer
    { opcode := .implant, usage := "implant $t0,4($t1)", kind := .immediate
      description := "", template := "100001 rrrrr sssss immediate" }).offer
    { opcode := .conjure, usage := "cnjr $t0,4($t1)", kind := .immediate
      description := "", template := "100000 rrrrr sssss immediate" }

/-- Stores the stack pointer where the global pointer points, and loads it from there. -/
def spill : Program :=
  (Program.empty.push 0x87BC0000 "implant $sp,0($gp)").push 0x811C0000 "cnjr $t0,0($gp)"

theorem spill_stores :
    ((create {} accessCatalog).load spill).Accesses .implant Registers.defaultGlobalPointer 29 :=
  .of_decode (fetch_eq_some_iff.mpr ⟨0, rfl, rfl⟩) ⟨.sequential, by decide +kernel⟩
    (by decide +kernel)

end Machine

end MagicAssembly
