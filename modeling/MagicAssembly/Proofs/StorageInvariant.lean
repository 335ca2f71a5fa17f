import MagicAssembly.Proofs.LatestStore
import MagicAssembly.Proofs.MemoryHistory

namespace MagicAssembly

/-- Registers with a cell for each, register 0 like any other. A read takes what the cell holds;
only a write knows that register 0 takes no value. -/
structure RegisterFile where
  cells : Vector Word 32

namespace RegisterFile

def zeroed : RegisterFile :=
  ⟨Vector.replicate 32 0⟩

def get (f : RegisterFile) (index : Nat) : Word :=
  f.cells[index]?.getD 0

def set (f : RegisterFile) (index : Nat) (value : Word) : RegisterFile :=
  if index = Registers.zeroIndex then f else ⟨f.cells.setIfInBounds index value⟩

/-- The file after all the writes, in order. -/
def written (writes : List (Nat × Word)) : RegisterFile :=
  writes.foldl (fun f w => f.set w.1 w.2) zeroed

theorem get_zeroed (i : Nat) : zeroed.get i = 0 := by
  simp only [get, zeroed, Vector.getElem?_replicate]
  split <;> rfl

theorem get_set (f : RegisterFile) (i j : Nat) (value : Word) :
    (f.set i value).get j =
      if i = j ∧ 0 < j ∧ j < registerCount then value else f.get j := by
  unfold set
  split
  · next hzero =>
    rw [if_neg]
    rintro ⟨rfl, hpos, _⟩
    exact Nat.ne_of_gt hpos hzero
  · next hzero =>
    have hpos : 0 < i := Nat.pos_of_ne_zero hzero
    simp only [get, Vector.getElem?_setIfInBounds, registerCount]
    grind

theorem written_concat (writes : List (Nat × Word)) (w : Nat × Word) :
    written (writes ++ [w]) = (written writes).set w.1 w.2 :=
  List.foldl_concat ..

/-- No write reaches the cell of register 0, so it keeps the 0 it started with. -/
theorem get_written_zero (writes : List (Nat × Word)) : (written writes).get 0 = 0 := by
  induction writes using List.reverseRecOn with
  | nil => rfl
  | append_singleton writes w ih =>
    rw [written_concat, get_set, if_neg (by simp), ih]

theorem get_of_ge (f : RegisterFile) {i : Nat} (h : registerCount ≤ i) : f.get i = 0 := by
  have hnone : f.cells[i]? = none := Vector.getElem?_eq_none h
  rw [get, hnone]
  rfl

end RegisterFile

namespace Registers

/-- The registers after all the writes, in order. -/
def written (writes : List (Nat × Word)) : Registers :=
  writes.foldl (fun r w => r.set w.1 w.2) zeroed

theorem written_concat (writes : List (Nat × Word)) (w : Nat × Word) :
    written (writes ++ [w]) = (written writes).set w.1 w.2 :=
  List.foldl_concat ..

theorem get_zeroed (i : Nat) : zeroed.get i = 0 := by
  cases i with
  | zero => rfl
  | succ i =>
    simp only [get, zeroed, Vector.getElem?_replicate]
    split <;> rfl

/-- A cell for register 0 would make no difference. -/
theorem get_written (writes : List (Nat × Word)) (i : Nat) :
    (written writes).get i = (RegisterFile.written writes).get i := by
  induction writes using List.reverseRecOn with
  | nil => exact (get_zeroed i).trans (RegisterFile.get_zeroed i).symm
  | append_singleton writes w ih =>
    rw [written_concat, RegisterFile.written_concat, get_set, RegisterFile.get_set, ih]

end Registers

/-- The registers come from writes alone, and words lie where words may be read. -/
structure Storage.WellFormed (s : Storage) : Prop where
  registers : ∃ writes, s.registers = .written writes
  memory : ∀ a ∈ s.memory.addresses, checkRead a = .ok ()

namespace Storage.WellFormed

theorem fresh (writes : List (Nat × Word)) : WellFormed ⟨.written writes, .empty⟩ := by
  refine ⟨⟨writes, rfl⟩, fun a ha => ?_⟩
  rw [Memory.addresses_empty] at ha
  cases ha

theorem clear {s : Storage} (h : s.WellFormed) : WellFormed ⟨s.registers, .empty⟩ := by
  obtain ⟨writes, hwrites⟩ := h.registers
  rw [hwrites]
  exact fresh writes

end Storage.WellFormed

/-- All that can become of a storage while its memory is not replaced: registers are written,
whichever they are, and words are stored at addresses that may be read. -/
inductive Storage.Reaches (s : Storage) : Storage → Prop
  | refl : Reaches s s
  | register {t : Storage} (h : Reaches s t) (index : Nat) (value : Word) :
      Reaches s ⟨t.registers.set index value, t.memory⟩
  | memory {t : Storage} (h : Reaches s t) {address : Word} (readable : checkRead address = .ok ())
      (value : Word) : Reaches s ⟨t.registers, t.memory.put address value⟩

namespace Storage.Reaches

variable {s t u : Storage}

theorem trans (h : s.Reaches t) (h' : t.Reaches u) : s.Reaches u := by
  induction h' with
  | refl => exact h
  | register _ index value ih => exact ih.register index value
  | memory _ readable value ih => exact ih.memory readable value

theorem addresses_subset (h : s.Reaches t) : s.memory.addresses ⊆ t.memory.addresses := by
  induction h with
  | refl => exact subset_rfl
  | register _ _ _ ih => exact ih
  | memory _ _ value ih =>
    rw [Memory.addresses_put]
    exact ih.trans (Set.subset_insert _ _)

/-- What is done to a storage keeps it well formed. -/
theorem wellFormed (h : s.Reaches t) (hs : s.WellFormed) : t.WellFormed := by
  induction h with
  | refl => exact hs
  | register _ index value ih =>
    obtain ⟨writes, hwrites⟩ := ih.registers
    refine ⟨⟨writes ++ [(index, value)], ?_⟩, ih.memory⟩
    rw [Registers.written_concat, hwrites]
  | memory _ readable value ih =>
    refine ⟨ih.registers, fun a ha => ?_⟩
    rw [Memory.addresses_put] at ha
    rcases Set.mem_insert_iff.mp ha with rfl | ha
    · exact readable
    · exact ih.memory a ha

end Storage.Reaches

/-- No rule does more than write registers and store a word where it may. -/
theorem Instruction.effect_reaches {labels : Labels} {s : Storage} {i : Instruction} {e : Effect}
    (h : i.effect labels s = .ok e) : s.Reaches (s.commit e.writes) := by
  cases i with
  | binary | binaryImmediate =>
    obtain ⟨value, rfl⟩ := BinaryOp.map_apply_ok h
    exact .register .refl _ _
  | unary | clear | increment =>
    cases h
    exact .register .refl _ _
  | swap =>
    cases h
    exact .register (.register .refl _ _) _ _
  | load =>
    simp only [effect] at h
    split at h <;> cases h
    exact .register .refl _ _
  | store =>
    simp only [effect] at h
    split at h
    · cases h
    · next writable =>
      cases h
      exact .memory .refl (readable_of_writable writable) _
  | branch =>
    cases h
    exact .refl
  | jump label =>
    cases label with
    | none => cases h
    | some label =>
      simp only [effect] at h
      split at h <;> cases h
      exact .refl

/-- After these the memory is a new one. -/
def Call.Erases : Call → Prop
  | .load _ | .reset | .memory .clear => True
  | .step | .run | .setRegister .. | .memory _ => False

theorem MemoryCall.readable_of_stores {c : MemoryCall} {a v : Word} (h : c.stores? = some (a, v)) :
    checkRead a = .ok () := by
  cases c with
  | read | clear => cases h
  | write b w =>
    simp only [stores?] at h
    split at h <;> cases h
    next hnone =>
    apply readable_of_writable
    rw [checkWrite_eq, hnone]
  | preload b w =>
    simp only [stores?] at h
    split at h <;> cases h
    next hnone => rw [checkRead_eq, hnone]

theorem Storage.reaches_call (s : Storage) {c : MemoryCall} (h : c ≠ .clear) :
    s.Reaches ⟨s.registers, s.memory.call c⟩ := by
  rw [Memory.call_eq h]
  split
  · next hstores => exact .memory .refl (MemoryCall.readable_of_stores hstores) _
  · exact .refl

namespace Machine

theorem step_reaches (m : Machine) : m.storage.Reaches m.step.machine.storage := by
  generalize hr : m.step = r
  cases stepCase hr with
  | latched | finished | spent | lost | past | undecoded | refused => exact .refl
  | retired _ _ _ _ effect => exact Instruction.effect_reaches effect

theorem run_reaches (m : Machine) : m.storage.Reaches m.run.machine.storage :=
  run_invariant (fun n => m.storage.Reaches n.storage) (fun n hn => hn.trans n.step_reaches) .refl

theorem call_reaches (m : Machine) {c : Call} (h : ¬c.Erases) :
    m.storage.Reaches (m.call c).storage := by
  cases c with
  | load | reset => exact absurd trivial h
  | step => exact m.step_reaches
  | run => exact m.run_reaches
  | setRegister index value => exact .register .refl index value
  | memory c =>
    apply Storage.reaches_call
    rintro rfl
    exact h trivial

theorem calls_reaches (m : Machine) {cs : List Call} (h : ∀ c ∈ cs, ¬c.Erases) :
    m.storage.Reaches (m.calls cs).storage :=
  calls_keep (P := fun n => m.storage.Reaches n.storage)
    (fun n c hc hn => hn.trans (n.call_reaches (h c hc))) .refl

theorem place_reaches (config : Config) (index : Nat) (ss : List Statement) (s : Storage) :
    s.Reaches ⟨s.registers, place config index ss s.memory⟩ := by
  induction ss generalizing index s with
  | nil => exact .refl
  | cons statement ss ih =>
    by_cases hreads : config.Reads index
    · obtain ⟨a, ha, hread⟩ := hreads
      rw [place_readable ha hread]
      have hput : s.Reaches ⟨s.registers, s.memory.put a statement.word⟩ := .memory .refl hread _
      exact hput.trans (ih (index + 1) _)
    · rw [place_unreadable hreads]
      exact .refl

theorem boot_wellFormed (config : Config) (catalog : Catalog) (program : Program) :
    (boot config catalog program).storage.WellFormed := by
  have hstart := Storage.WellFormed.fresh
    [(Registers.globalPointerIndex, config.globalPointer),
      (Registers.stackPointerIndex, config.stackPointer)]
  exact (place_reaches config 0 program.statements.toList _).wellFormed hstart

theorem call_wellFormed {m : Machine} (h : m.storage.WellFormed) (c : Call) :
    (m.call c).storage.WellFormed := by
  by_cases hc : c.Erases
  · cases c with
    | load program => exact boot_wellFormed m.config m.catalog program
    | reset => exact boot_wellFormed m.config m.catalog m.program
    | memory c =>
      cases c with
      | clear => exact h.clear
      | read | write | preload => cases hc
    | step | run | setRegister => cases hc
  · exact (m.call_reaches hc).wellFormed h

/-- Whatever a host asks for, register 0 and numbers beyond the last register read 0, as they would
if register 0 had a cell of its own. Words lie at whole words of text and data, and none is lost
until the memory is replaced. -/
theorem storage_invariant (config : Config) (catalog : Catalog) (cs : List Call) :
    let m := (create config catalog).calls cs
    m.storage.registers.get 0 = 0 ∧
    (∀ i, registerCount ≤ i → m.storage.registers.get i = 0) ∧
    (∃ writes, m.storage.registers = .written writes ∧
      ∀ i, m.storage.registers.get i = (RegisterFile.written writes).get i) ∧
    (∀ a ∈ m.storage.memory.addresses,
      Aligned a ∧ (Region.text.Contains a ∨ Region.data.Contains a)) ∧
    ∀ ds : List Call, (∀ d ∈ ds, ¬d.Erases) →
      m.storage.memory.addresses ⊆ (m.calls ds).storage.memory.addresses := by
  intro m
  have hm : m.storage.WellFormed :=
    calls_keep (P := fun n => n.storage.WellFormed) (fun _ c _ hn => call_wellFormed hn c)
      (boot_wellFormed config catalog .empty)
  obtain ⟨writes, hwrites⟩ := hm.registers
  have hget (i : Nat) : m.storage.registers.get i = (RegisterFile.written writes).get i := by
    rw [hwrites, Registers.get_written]
  refine ⟨?_, ?_, ⟨writes, hwrites, hget⟩, ?_, ?_⟩
  · rw [hget, RegisterFile.get_written_zero]
  · intro i hi
    rw [hget, RegisterFile.get_of_ge _ hi]
  · intro a ha
    exact checkRead_eq_ok_iff_region.mp (hm.memory a ha)
  · intro ds hds
    exact (m.calls_reaches hds).addresses_subset

/-- The storage of `spill` before and after its first step, which stores a word. -/
theorem spill_storage :
    let m := (create {} accessCatalog).calls [.load spill, .setRegister 0 7]
    let ds := [Call.step, .setRegister 40 7]
    (∀ d ∈ ds, ¬d.Erases) ∧
    m.storage.registers.get 0 = 0 ∧ m.storage.registers.get 40 = 0 ∧
    0x00400000 ∈ m.storage.memory.addresses ∧
    (Aligned 0x00400000 ∧
      (Region.text.Contains 0x00400000 ∨ Region.data.Contains 0x00400000)) ∧
    0x00400000 ∈ (m.calls ds).storage.memory.addresses ∧
    Registers.defaultGlobalPointer ∈ (m.calls ds).storage.memory.addresses := by
  have hload (n : Machine) : n.calls [.load spill, .setRegister 0 7] = n.load spill := rfl
  have hplaced : 0x00400000 ∈ ((create {} accessCatalog).load spill).storage.memory.addresses :=
    ⟨0x87BC0000, find_boot.mpr ⟨⟨0, _, rfl, rfl, rfl⟩, rfl, rfl⟩⟩
  have hstored := spill_stores.stores.2
  obtain ⟨hzero, hbeyond, _, hlies, hgrows⟩ :=
    storage_invariant {} accessCatalog [.load spill, .setRegister 0 7]
  rw [hload] at *
  generalize (create {} accessCatalog).load spill = m at *
  have hkeeps : ∀ d ∈ [Call.step, .setRegister 40 7], ¬d.Erases := by simp [Call.Erases]
  have hnew : Registers.defaultGlobalPointer ∈ m.step.machine.storage.memory.addresses := by
    rw [hstored, Memory.addresses_put]
    exact Set.mem_insert _ _
  exact ⟨hkeeps, hzero, hbeyond 40 (by decide), hplaced, hlies _ hplaced,
    hgrows _ hkeeps hplaced, hnew⟩

end Machine

end MagicAssembly
