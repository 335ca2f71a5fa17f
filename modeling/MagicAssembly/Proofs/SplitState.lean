import MagicAssembly.Proofs.RunPath
import MagicAssembly.Proofs.Session

namespace MagicAssembly

/-- A machine that keeps its run state and its last error in two fields, and sets each of them for
itself. -/
structure SplitMachine where
  config : Config
  catalog : Catalog
  program : Program
  storage : Storage
  pc : Word
  steps : Nat
  runState : Status FaultKind
  lastError : Option ExecutionError

namespace SplitMachine

/-- Neither of the two fields has a part in what is fetched. -/
def fetch (m : SplitMachine) : Except AddressError (Option Statement) :=
  Machine.fetch ⟨m.config, m.catalog, m.program, m.storage, m.pc, m.steps, .running⟩

def latch (m : SplitMachine) (error : ExecutionError) : SplitMachine × StepOutcome :=
  ({ m with runState := .faulted error.fault.kind, lastError := some error },
    .fault error.fault.kind)

def perform (m : SplitMachine) (s : Statement) : SplitMachine × StepOutcome :=
  match m.catalog.decode s.word m.pc with
  | none => m.latch ⟨dataText s.word, m.pc, .illegalEncoding s.word⟩
  | some d =>
    match d.execute s.tokens m.pc m.program.labels m.storage with
    | (.error error, storage) => latch { m with storage } error
    | (.ok control, storage) =>
      ({ m with storage, steps := m.steps + 1, pc := control.next m.pc }, .retired control)

def step (m : SplitMachine) : SplitMachine × StepOutcome :=
  match m.runState with
  | .faulted kind => (m, .fault kind)
  | .completed => (m, .completed)
  | .running =>
    if m.config.stepBudget ≤ m.steps then (m, .budgetExhausted)
    else
      match m.fetch with
      | .error e => m.latch ⟨"(fetch)", m.pc, .address e⟩
      | .ok none => ({ m with runState := .completed }, .completed)
      | .ok (some s) => m.perform s

/-- Steps until no more instructions retire, but not more often than it is told. -/
def runFor : Nat → SplitMachine → SplitMachine
  | 0, m => m
  | n + 1, m =>
    match m.step with
    | (m', .retired _) => runFor n m'
    | (m', _) => m'

/-- Every step but the last one spends some of the budget. -/
def run (m : SplitMachine) : SplitMachine :=
  m.runFor (m.config.stepBudget - m.steps + 1)

def reset (m : SplitMachine) : SplitMachine :=
  { m with
    storage := Machine.initialStorage m.config m.program
    pc := m.config.textBase
    steps := 0
    runState := .running
    lastError := none }

def load (m : SplitMachine) (program : Program) : SplitMachine :=
  reset { m with program }

def create (config : Config) (catalog : Catalog) : SplitMachine :=
  reset
    { config, catalog
      program := .empty
      storage := ⟨.zeroed, .empty⟩
      pc := config.textBase
      steps := 0
      runState := .running
      lastError := none }

def call (m : SplitMachine) : Call → SplitMachine
  | .load program => m.load program
  | .reset => m.reset
  | .step => m.step.1
  | .run => m.run
  | .setRegister index value =>
    { m with storage.registers := m.storage.registers.set index value }
  | .memory c => { m with storage.memory := m.storage.memory.call c }

/-- The machine after all the calls, in order. -/
def calls (m : SplitMachine) (cs : List Call) : SplitMachine :=
  cs.foldl call m

end SplitMachine

namespace Machine

/-- What a host is told of the status, as two fields. -/
def split (m : Machine) : SplitMachine :=
  ⟨m.config, m.catalog, m.program, m.storage, m.pc, m.steps, m.runState, m.lastError?⟩

theorem split_perform {m : Machine} (status : m.status = .running) (s : Statement) :
    m.split.perform s = ((m.perform s).machine.split, (m.perform s).outcome) := by
  obtain ⟨config, catalog, program, storage, pc, steps, _⟩ := m
  obtain ⟨word, tokens⟩ := s
  obtain rfl := status
  simp only [SplitMachine.perform, perform, split]
  cases catalog.decode word pc with
  | none => rfl
  | some d =>
    dsimp only
    obtain ⟨result, storage'⟩ := d.execute tokens pc program.labels storage
    cases result <;> rfl

theorem split_complete {m : Machine} (status : m.status = .running) :
    { m.split with runState := .completed } = m.complete.machine.split := by
  simp [split, complete, runState, lastError?, status, Status.map, Status.fault?]

theorem split_step (m : Machine) : m.split.step = (m.step.machine.split, m.step.outcome) := by
  have hfetch : m.split.fetch = m.fetch := rfl
  cases hstatus : m.status with
  | faulted e | completed =>
    simp only [SplitMachine.step, step, split, runState, hstatus, Status.map]
  | running =>
    have hrunning : m.split.runState = .running := congrArg (Status.map _) hstatus
    simp only [SplitMachine.step, step, hstatus, hrunning, hfetch]
    change (if m.config.stepBudget ≤ m.steps then _ else _) = _
    split
    · rfl
    · cases m.fetch with
      | error e => rfl
      | ok statement =>
        cases statement with
        | none => exact congrArg (Prod.mk · StepOutcome.completed) (split_complete hstatus)
        | some s => exact split_perform hstatus s

theorem split_stop {m : Machine} (h : m.Stops) (n : Nat) :
    m.split.runFor (n + 1) = m.step.machine.split := by
  unfold Stops at h
  rw [SplitMachine.runFor, split_step]
  split
  · next m' control hstep => exact absurd (congrArg Prod.snd hstep) (h control)
  · next hstep => exact (congrArg Prod.fst hstep).symm

theorem Retires.split_runFor {m : Machine} {x : Retirement} (h : m.Retires x) (n : Nat) :
    m.split.runFor (n + 1) = m.step.machine.split.runFor n := by
  rw [SplitMachine.runFor, split_step, h.outcome]

/-- The loop comes to the end of the path if it may make one more step than the path is long. -/
theorem Path.split_runFor {m last : Machine} {path : List Retirement} (h : m.Path path last)
    (hstop : last.Stops) {n : Nat} (enough : path.length < n) :
    m.split.runFor n = last.step.machine.split := by
  induction h generalizing n with
  | stay m =>
    cases n with
    | zero => cases enough
    | succ n => exact split_stop hstop n
  | go retires _ ih =>
    cases n with
    | zero => cases enough
    | succ n =>
      rw [retires.split_runFor]
      exact ih hstop (Nat.lt_of_succ_lt_succ enough)

theorem split_run (m : Machine) : m.split.run = m.run.machine.split := by
  obtain ⟨path, last, hpath, hstop⟩ := m.exists_path
  rw [run_eq hpath hstop]
  exact hpath.split_runFor hstop (Nat.lt_succ_of_le hpath.length_le)

theorem split_call (m : Machine) (c : Call) : m.split.call c = (m.call c).split := by
  cases c with
  | step => exact congrArg Prod.fst m.split_step
  | run => exact m.split_run
  | load | reset | setRegister | memory => rfl

/-- Whatever a host asks for, the two fields say of the status what there is to say. -/
theorem split_calls (config : Config) (catalog : Catalog) (cs : List Call) :
    (SplitMachine.create config catalog).calls cs = ((create config catalog).calls cs).split := by
  have hcreate : SplitMachine.create config catalog = (create config catalog).split := rfl
  rw [hcreate]
  generalize create config catalog = m
  induction cs generalizing m with
  | nil => rfl
  | cons c cs ih =>
    change (m.split.call c).calls cs = _
    rw [split_call, ih]
    rfl

end Machine

end MagicAssembly
