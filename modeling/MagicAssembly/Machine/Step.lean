import MagicAssembly.Machine.Basic

namespace MagicAssembly

inductive StepOutcome
  | retired (control : Control)
  | completed
  | fault (kind : FaultKind)
  | budgetExhausted
  deriving DecidableEq

inductive TraceEvent
  | instructionStart (pc word : Word)
  | controlTransfer (source target : Word)
  | faultRaised (kind : FaultKind) (pc : Word)
  | programCompleted (pc : Word) (steps : Nat)
  deriving DecidableEq

/-- The machine after one attempt to execute a statement, with what was reported on the way. -/
structure Step where
  machine : Machine
  outcome : StepOutcome
  events : List TraceEvent

def Control.transferEvents (pc : Word) : Control → List TraceEvent
  | .sequential => []
  | .transfer target => [.controlTransfer pc target]

namespace Machine

def traced (m : Machine) (events : List TraceEvent) : List TraceEvent :=
  if m.config.tracing then events else []

/-- Nothing moves any more until the machine is reset. -/
def latch (m : Machine) (started : List TraceEvent) (error : ExecutionError) : Step :=
  { machine := { m with status := .faulted error }
    outcome := .fault error.fault.kind
    events := m.traced (started ++ [.faultRaised error.fault.kind error.address]) }

def complete (m : Machine) : Step :=
  { machine := { m with status := .completed }
    outcome := .completed
    events := m.traced [.programCompleted m.pc m.steps] }

def retire (m : Machine) (started : List TraceEvent) (control : Control) : Step :=
  { machine := { m with pc := control.next m.pc, steps := m.steps + 1 }
    outcome := .retired control
    events := m.traced (started ++ control.transferEvents m.pc) }

/-- Executes the statement at `pc`. -/
def perform : Machine → Statement → Step
  | ⟨config, catalog, program, storage, pc, steps, status⟩, ⟨word, tokens⟩ =>
    let started := [.instructionStart pc word]
    match catalog.decode word pc with
    | none =>
      latch ⟨config, catalog, program, storage, pc, steps, status⟩ started
        ⟨dataText word, pc, .illegalEncoding word⟩
    | some d =>
      match d.execute tokens pc program.labels storage with
      | (.error error, storage') =>
        latch ⟨config, catalog, program, storage', pc, steps, status⟩ started error
      | (.ok control, storage') =>
        retire ⟨config, catalog, program, storage', pc, steps, status⟩ started control

/-- A machine that has stopped, or spent its budget, stays as it is. -/
def step (m : Machine) : Step :=
  match m.status with
  | .faulted error => ⟨m, .fault error.fault.kind, []⟩
  | .completed => ⟨m, .completed, []⟩
  | .running =>
    if m.config.stepBudget ≤ m.steps then ⟨m, .budgetExhausted, []⟩
    else
      match m.fetch with
      | .error e => m.latch [] ⟨"(fetch)", m.pc, .address e⟩
      | .ok none => m.complete
      | .ok (some statement) => m.perform statement

theorem perform_config (m : Machine) (s : Statement) :
    (m.perform s).machine.config = m.config := by
  unfold perform
  dsimp only
  split
  · rfl
  · split <;> rfl

theorem step_config (m : Machine) : m.step.machine.config = m.config := by
  unfold step
  split
  · rfl
  · rfl
  · split
    · rfl
    · split
      · rfl
      · rfl
      · exact perform_config m _

theorem perform_retired {m : Machine} {s : Statement} {control : Control}
    (h : (m.perform s).outcome = .retired control) :
    (m.perform s).machine.steps = m.steps + 1 := by
  revert h
  unfold perform
  dsimp only
  split
  · simp [latch]
  · split
    · simp [latch]
    · intro _
      rfl

/-- Only a step that spends some of the budget retires an instruction. -/
theorem step_retired {m : Machine} {control : Control} (h : m.step.outcome = .retired control) :
    m.step.machine.steps = m.steps + 1 ∧ m.steps < m.config.stepBudget := by
  revert h
  unfold step
  split
  · simp
  · simp
  · split
    · simp
    · next hb =>
      split
      · simp [latch]
      · simp [complete]
      · exact fun h => ⟨perform_retired h, Nat.lt_of_not_le hb⟩

end Machine

end MagicAssembly
