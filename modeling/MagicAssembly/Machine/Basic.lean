import MagicAssembly.Execution
import MagicAssembly.Program

namespace MagicAssembly

def defaultStepBudget : Nat := 1000000

/-- What stays fixed while programs come and go. `stepBudget` limits the instructions retired
between resets. -/
structure Config where
  textBase : Word := Region.text.first
  stepBudget : Nat := defaultStepBudget
  tracing : Bool := false
  globalPointer : Word := Registers.defaultGlobalPointer
  stackPointer : Word := Registers.defaultStackPointer
  deriving DecidableEq

/-- Statements fill consecutive words from the text base on. Those past the end of the address space
have no address. -/
def Config.address? (c : Config) (index : Nat) : Option Word :=
  let address := c.textBase.toNat + wordBytes * index
  if address < 1 <<< wordBits then some (BitVec.ofNat 32 address) else none

/-- `ε` says what is kept of a fault. -/
inductive Status (ε : Type)
  | running
  | completed
  | faulted (error : ε)
  deriving DecidableEq

namespace Status

def fault? : Status ε → Option ε
  | .faulted error => some error
  | .running | .completed => none

def isTerminal : Status ε → Bool
  | .running => false
  | .completed | .faulted _ => true

def map (f : ε → δ) : Status ε → Status δ
  | .running => .running
  | .completed => .completed
  | .faulted error => .faulted (f error)

theorem fault_eq_some_iff {status : Status ε} {e : ε} :
    status.fault? = some e ↔ status = .faulted e := by
  cases status <;> simp [fault?]

theorem map_eq_faulted_iff {status : Status ε} {f : ε → δ} {d : δ} :
    status.map f = .faulted d ↔ ∃ e, status = .faulted e ∧ f e = d := by
  cases status <;> simp [map]

theorem map_eq_running_iff {status : Status ε} {f : ε → δ} :
    status.map f = .running ↔ status = .running := by
  cases status <;> simp [map]

theorem map_eq_completed_iff {status : Status ε} {f : ε → δ} :
    status.map f = .completed ↔ status = .completed := by
  cases status <;> simp [map]

end Status

structure Machine where
  config : Config
  catalog : Catalog
  program : Program
  storage : Storage
  pc : Word
  /-- Instructions retired since the last reset. -/
  steps : Nat
  status : Status ExecutionError

namespace Machine

/-- Stops at the first statement whose word cannot be read back. -/
def place (config : Config) : Nat → List Statement → Memory → Memory
  | _, [], memory => memory
  | index, s :: ss, memory =>
    match config.address? index with
    | none => memory
    | some address =>
      match memory.preload address s.word with
      | .error _ => memory
      | .ok memory' => place config (index + 1) ss memory'

def initialStorage (config : Config) (program : Program) : Storage :=
  { registers := .withPointers config.globalPointer config.stackPointer
    memory := place config 0 program.statements.toList .empty }

/-- A machine about to run a program from its first statement. -/
def boot (config : Config) (catalog : Catalog) (program : Program) : Machine :=
  { config, catalog, program
    storage := initialStorage config program
    pc := config.textBase
    steps := 0
    status := .running }

def create (config : Config) (catalog : Catalog) : Machine :=
  boot config catalog .empty

def load (m : Machine) (program : Program) : Machine :=
  boot m.config m.catalog program

def reset (m : Machine) : Machine :=
  m.load m.program

/-- The host may write registers between steps. -/
def setRegister (m : Machine) (index : Nat) (value : Word) : Machine :=
  { m with storage.registers := m.storage.registers.set index value }

/-- The host may replace the memory between steps. -/
def setMemory (m : Machine) (memory : Memory) : Machine :=
  { m with storage.memory := memory }

/-- What a host is told of the status: of a fault no more than its kind. -/
def runState (m : Machine) : Status FaultKind :=
  m.status.map fun e => e.fault.kind

def lastError? (m : Machine) : Option ExecutionError :=
  m.status.fault?

def statementAddress? (m : Machine) (index : Nat) : Option Word :=
  m.config.address? index

/-- The statement at `pc`, or nothing past the last one. -/
def statementIndex (m : Machine) (pc : Word) :
    Except AddressError (Option (Fin m.program.statements.size)) :=
  if pc < m.config.textBase then .error ⟨pc, .outOfRange⟩
  else
    let offset := (pc - m.config.textBase).toNat
    if offset % wordBytes ≠ 0 then .error ⟨pc, .unaligned⟩
    else if h : offset / wordBytes < m.program.statements.size then .ok (some ⟨_, h⟩)
    else .ok none

def fetch (m : Machine) : Except AddressError (Option Statement) :=
  (m.statementIndex m.pc).map fun index => index.map fun i => m.program.statements[i]

end Machine

end MagicAssembly
