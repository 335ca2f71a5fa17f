import MagicAssembly.Proofs.Coherence
import MagicAssembly.Proofs.Placement

namespace MagicAssembly

namespace Machine

/-- Places words one after the other in the memory as it is. Stops at the first one that cannot be
read back. -/
def placeWords : Nat → List Statement → Machine → Machine
  | _, [], m => m
  | index, s :: ss, m =>
    match m.statementAddress? index with
    | none => m
    | some address =>
      match m.storage.memory.preload address s.word with
      | .error _ => m
      | .ok memory => placeWords (index + 1) ss (m.setMemory memory)

/-- A reset as it is carried out on the machine as it stands, one field after the other. -/
def rewind (m : Machine) : Machine :=
  let m := { m with storage.registers := .zeroed }
  let m := m.setRegister Registers.globalPointerIndex m.config.globalPointer
  let m := m.setRegister Registers.stackPointerIndex m.config.stackPointer
  let m := m.setMemory (m.storage.memory.call .clear)
  let m := placeWords 0 m.program.statements.toList m
  { m with pc := m.config.textBase, steps := 0, status := .running }

/-- Takes the program in and starts it anew. -/
def replace (m : Machine) (program : Program) : Machine :=
  rewind { m with program }

/-- A machine as it is put together, before it is set up for the first time. -/
def blank (config : Config) (catalog : Catalog) : Machine :=
  { config, catalog
    program := .empty
    storage := ⟨.zeroed, .empty⟩
    pc := config.textBase
    steps := 0
    status := .running }

theorem placeWords_eq (index : Nat) (ss : List Statement) (m : Machine) :
    placeWords index ss m = m.setMemory (place m.config index ss m.storage.memory) := by
  induction ss generalizing index m with
  | nil => rfl
  | cons s ss ih =>
    simp only [placeWords, place, statementAddress?]
    cases m.config.address? index with
    | none => rfl
    | some address =>
      cases hplaced : m.storage.memory.preload address s.word with
      | error e =>
        simp only [hplaced]
        rfl
      | ok memory =>
        simp only [hplaced, ih]
        rfl

/-- A reset leaves nothing of what was there before, whichever fields it comes to first. -/
theorem rewind_eq (m : Machine) : m.rewind = boot m.config m.catalog m.program := by
  simp only [rewind, placeWords_eq]
  rfl

/-- After any history a machine that is loaded is the new machine that is loaded, so that nothing
it does later can tell them apart. A reset is a load of the program that is there. -/
theorem load_forgets (config : Config) (catalog : Catalog) (history : List Call)
    (program : Program) :
    let m := (create config catalog).calls history
    let fresh := (create config catalog).load program
    create config catalog = (blank config catalog).rewind ∧
    (m.load program = fresh ∧ m.replace program = fresh) ∧
    (m.rewind = m.replace m.program ∧ m.rewind = m.reset ∧ m.reset = m.load m.program) ∧
    fresh.storage.registers = .withPointers config.globalPointer config.stackPointer ∧
    (∀ address word, fresh.storage.memory.find? address = some word ↔
      Placed config program address word) ∧
    fresh.pc = config.textBase ∧ fresh.steps = 0 ∧ fresh.status = .running := by
  intro m fresh
  have hconfig : m.config = config := calls_config _ history
  have hcatalog : m.catalog = catalog := calls_catalog _ history
  have hload : m.load program = fresh := by
    rw [load, hconfig, hcatalog]
    rfl
  refine ⟨(rewind_eq (blank config catalog)).symm, ⟨hload, ?_⟩, ⟨rfl, rewind_eq m, rfl⟩, rfl,
    fun _ _ => find_boot, rfl, rfl, rfl⟩
  rw [replace, rewind_eq]
  exact hload

end Machine

end MagicAssembly
