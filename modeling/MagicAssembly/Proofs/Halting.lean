import MagicAssembly.Proofs.Listing
import MagicAssembly.Proofs.RunPath
import MagicAssembly.Proofs.Session

namespace MagicAssembly

/-- Calls that do not start a program anew. -/
def Call.Onward : Call → Prop
  | .step | .run | .setRegister .. | .memory _ => True
  | .load _ | .reset => False

namespace Machine

/-- The machine does not move any more, for one of three reasons. All its steps return the same. -/
inductive Halted (m : Machine) : StepOutcome → Prop
  | latched {e : ExecutionError} (status : m.status = .faulted e) :
      Halted m (.fault e.fault.kind)
  | finished (status : m.status = .completed) : Halted m .completed
  | spent (status : m.status = .running) (budget : m.config.stepBudget ≤ m.steps) :
      Halted m .budgetExhausted

/-- A step that retires nothing leaves a machine that has halted. -/
theorem Stops.halted {m : Machine} (h : m.Stops) : m.step.machine.Halted m.step.outcome := by
  unfold Stops at h
  generalize hr : m.step = r at h
  cases stepCase hr with
  | latched status => exact .latched status
  | finished status => exact .finished status
  | spent status budget => exact .spent status budget
  | lost | undecoded | refused => exact .latched rfl
  | past => exact .finished rfl
  | retired => exact absurd rfl (h _)

namespace Halted

variable {m : Machine} {o : StepOutcome}

theorem step (h : m.Halted o) : m.step = ⟨m, o, []⟩ := by
  cases h with
  | latched status => exact (StepCase.latched status).step_eq
  | finished status => exact (StepCase.finished status).step_eq
  | spent status budget => exact (StepCase.spent status budget).step_eq

theorem stops (h : m.Halted o) : m.Stops := by
  intro control
  rw [h.step]
  cases h <;> simp

theorem run (h : m.Halted o) : m.run = ⟨m, 0, o, []⟩ := by
  rw [run_eq (.stay m) h.stops, h.step]
  simp [traced]

/-- Neither the registers nor the memory has a part in why a machine has halted. -/
theorem setStorage (h : m.Halted o) (storage : Storage) : Halted { m with storage } o := by
  cases h with
  | latched status => exact .latched status
  | finished status => exact .finished status
  | spent status budget => exact .spent status budget

/-- No call but a new start gets the machine going again. -/
theorem call (h : m.Halted o) {c : Call} (onward : c.Onward) :
    (m.call c).Halted o ∧ ∃ storage, m.call c = { m with storage } := by
  cases c with
  | load | reset => cases onward
  | step =>
    rw [Machine.call, h.step]
    exact ⟨h, m.storage, rfl⟩
  | run =>
    rw [Machine.call, h.run]
    exact ⟨h, m.storage, rfl⟩
  | setRegister | memory => exact ⟨h.setStorage _, _, rfl⟩

theorem calls (h : m.Halted o) {cs : List Call} (onward : ∀ c ∈ cs, c.Onward) :
    (m.calls cs).Halted o ∧ ∃ storage, m.calls cs = { m with storage } := by
  refine calls_keep (P := fun n => n.Halted o ∧ ∃ storage, n = { m with storage }) ?_
    ⟨h, m.storage, rfl⟩
  rintro n c hc ⟨hn, storage, hstorage⟩
  obtain ⟨hcall, storage', hcall'⟩ := hn.call (onward c hc)
  exact ⟨hcall, storage', by rw [hcall', hstorage]⟩

end Halted

/-- Once a step has retired nothing, every later one returns what it returned, every run ends with
that at once, and both change and report nothing, whatever the host has written in between. -/
theorem halted_for_good {m : Machine} {o : StepOutcome} (outcome : m.step.outcome = o)
    (unretired : ∀ control, o ≠ .retired control) {cs : List Call}
    (onward : ∀ c ∈ cs, c.Onward) :
    let last := m.step.machine.calls cs
    last.step = ⟨last, o, []⟩ ∧ last.run = ⟨last, 0, o, []⟩ ∧
      (∃ storage, last = { m.step.machine with storage }) ∧
        (o = .budgetExhausted → last.runState = .running) := by
  intro last
  subst outcome
  obtain ⟨hlast, hstorage⟩ := (Stops.halted unretired).calls onward
  refine ⟨hlast.step, hlast.run, hstorage, ?_⟩
  intro hspent
  rw [hspent] at hlast
  cases hlast with
  | spent status => exact Status.map_eq_running_iff.mpr status

/-- The budget is spent in the middle of a loop. Writing the register that the loop counts in and
clearing the memory does not set it going again. -/
theorem chargeLoop_halted :
    let start := (create Listing.chargeLoop.config Listing.chargeLoop.catalog).load
      Listing.chargeLoopProgram
    let m := after attempt 5 start
    let cs : List Call := [.setRegister 8 0, .run, .memory .clear, .step]
    m.step.outcome = .budgetExhausted ∧ (∀ c ∈ cs, c.Onward) ∧
      let last := m.step.machine.calls cs
      last.step = ⟨last, .budgetExhausted, []⟩ ∧ last.run = ⟨last, 0, .budgetExhausted, []⟩ ∧
        last.runState = .running := by
  intro start m cs
  have houtcome : m.step.outcome = .budgetExhausted := by decide +kernel
  have honward : ∀ c ∈ cs, c.Onward := by simp [cs, Call.Onward]
  obtain ⟨hstep, hrun, _, hrunState⟩ := halted_for_good houtcome (by simp) honward
  exact ⟨houtcome, honward, hstep, hrun, hrunState rfl⟩

end Machine

end MagicAssembly
