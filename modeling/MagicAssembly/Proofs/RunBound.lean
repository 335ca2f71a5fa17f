import Mathlib.Algebra.Group.Nat.Defs
import MagicAssembly.Proofs.Budget
import MagicAssembly.Proofs.Coherence

namespace MagicAssembly

/-- Instructions are counted in 64 bits. -/
def counterLimit : Nat :=
  2 ^ 64

namespace Machine

/-- The loop of a run, cut off after so many steps. Nothing comes back from a loop that is cut off
or that counts past what a counter can hold. -/
def runWithin : Nat → Machine → Nat → List TraceEvent → Option Run
  | 0, _, _, _ => none
  | steps + 1, m, retired, events =>
    let r := m.step
    match r.outcome with
    | .retired _ =>
      if r.machine.steps < counterLimit ∧ retired + 1 < counterLimit then
        runWithin steps r.machine (retired + 1) (events ++ r.events)
      else none
    | final => some ⟨r.machine, retired, final, events ++ r.events⟩

theorem Stops.runWithin_succ {m : Machine} (h : m.Stops) (n retired : Nat)
    (events : List TraceEvent) :
    runWithin (n + 1) m retired events =
      some ⟨m.step.machine, retired, m.step.outcome, events ++ m.step.events⟩ := by
  unfold Stops at h
  simp only [runWithin]

theorem Retires.runWithin_succ {m : Machine} {x : Retirement} (h : m.Retires x) {retired : Nat}
    (steps : m.step.machine.steps < counterLimit) (count : retired + 1 < counterLimit) (n : Nat)
    (events : List TraceEvent) :
    runWithin (n + 1) m retired events =
      runWithin n m.step.machine (retired + 1) (events ++ m.step.events) := by
  simp only [runWithin, h.outcome, if_pos (And.intro steps count)]

/-- The loop comes to the end of the path if it may make one more step than the path is long. -/
theorem Path.runWithin_eq {m last : Machine} {path : List Retirement} (h : m.Path path last)
    (hstop : last.Stops) {retired : Nat} (steps : last.steps < counterLimit)
    (count : retired + path.length < counterLimit) (n : Nat) (events : List TraceEvent) :
    runWithin n m retired events =
      if path.length < n then
        some ⟨last.step.machine, retired + path.length, last.step.outcome,
          events ++ m.traced (path.flatMap Retirement.events) ++ last.step.events⟩
      else none := by
  induction h generalizing n retired events with
  | stay m =>
    cases n with
    | zero => rfl
    | succ n => simp [hstop.runWithin_succ, traced]
  | @go m last x path retires rest ih =>
    cases n with
    | zero => rfl
    | succ n =>
      have hrest := rest.steps
      rw [List.length_cons] at count ⊢
      rw [retires.runWithin_succ (by omega) (by omega), ih hstop steps (by omega), retires.events,
        traced_step, List.flatMap_cons, traced_append]
      simp [Nat.add_assoc, Nat.add_comm 1]

section

variable {m : Machine}

theorem run_within_budget_left (within : m.steps ≤ m.config.stepBudget) :
    m.steps + m.run.retired ≤ m.config.stepBudget := by
  obtain ⟨path, last, hpath, hstop⟩ := m.exists_path
  have hlength := hpath.length_le
  rw [run_eq hpath hstop]
  dsimp only
  omega

theorem runWithin_eq (within : m.steps ≤ m.config.stepBudget)
    (fits : m.config.stepBudget < counterLimit) (n : Nat) :
    runWithin n m 0 [] = if m.run.retired < n then some m.run else none := by
  obtain ⟨path, last, hpath, hstop⟩ := m.exists_path
  have hlast := hpath.within_budget within
  rw [hpath.config] at hlast
  have hsteps := hpath.steps
  rw [hpath.runWithin_eq hstop (by omega) (by omega), run_eq hpath hstop, Nat.zero_add]
  rfl

end

/-- A run comes to its end with one step more than it has budget left, however the program goes
round, and neither its count nor that of the machine overflows on the way. It does not end with a
retired instruction, and for want of budget only if the budget is spent. -/
theorem run_returns {m : Machine} (within : m.steps ≤ m.config.stepBudget)
    (fits : m.config.stepBudget < counterLimit) :
    let r := m.run
    (∀ n, runWithin n m 0 [] = if r.retired < n then some r else none) ∧
    runWithin (m.config.stepBudget - m.steps + 1) m 0 [] = some r ∧
    (∀ control, r.final ≠ .retired control) ∧
    r.machine.steps = m.steps + r.retired ∧ r.retired ≤ m.config.stepBudget - m.steps ∧
    (r.final = .budgetExhausted → r.machine.steps = m.config.stepBudget) ∧
    ∀ config catalog calls,
      (Session.after config catalog calls).machine.steps ≤ config.stepBudget := by
  intro r
  have hleft := run_within_budget_left within
  have hretired : r.retired ≤ m.config.stepBudget - m.steps := Nat.le_sub_of_add_le' hleft
  refine ⟨runWithin_eq within fits, ?_, run_final m, run_steps m, hretired, ?_, ?_⟩
  · rw [runWithin_eq within fits, if_pos (Nat.lt_succ_of_le hretired)]
  · intro hspent
    rw [run_steps]
    exact (run_spent m.config within rfl (Nat.le_refl _) hspent).1
  · intro config catalog calls
    have hbudget := (Session.after_coherent config catalog calls).budget
    rwa [Session.after_config] at hbudget

/-- A loop under the largest budget that there is, two instructions before it is spent. -/
theorem run_returns_chargeLoop :
    let start := (create { stepBudget := counterLimit - 1 } Listing.chargeLoop.catalog).load
      Listing.chargeLoopProgram
    let m := { start with steps := counterLimit - 3 }
    m.steps ≤ m.config.stepBudget ∧ m.config.stepBudget < counterLimit ∧
      runWithin 3 m 0 [] = some m.run ∧ m.run.final = .budgetExhausted ∧
        m.run.machine.steps = counterLimit - 1 := by
  intro start m
  have hwithin : m.steps ≤ m.config.stepBudget := by decide
  have hfits : m.config.stepBudget < counterLimit := by decide
  have hfinal : m.run.final = .budgetExhausted := by decide +kernel
  have hthree : m.config.stepBudget - m.steps + 1 = 3 := by decide
  obtain ⟨_, hreturns, _, _, _, hspent, _⟩ := run_returns hwithin hfits
  rw [hthree] at hreturns
  exact ⟨hwithin, hfits, hreturns, hfinal, hspent hfinal⟩

end Machine

end MagicAssembly
