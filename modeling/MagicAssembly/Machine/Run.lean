import MagicAssembly.Machine.Step

namespace MagicAssembly

/-- The machine after it has been stepped until it stopped retiring instructions. -/
structure Run where
  machine : Machine
  retired : Nat
  final : StepOutcome
  events : List TraceEvent

namespace Machine

/-- Goes on with a run that has retired and reported something already. -/
def runFrom (m : Machine) (retired : Nat) (events : Array TraceEvent) : Run :=
  match _h : m.step with
  | ⟨machine, .retired _, more⟩ => machine.runFrom (retired + 1) (events ++ more)
  | ⟨machine, final, more⟩ => ⟨machine, retired, final, (events ++ more).toList⟩
termination_by m.config.stepBudget - m.steps
decreasing_by
  have hc := step_config m
  have hs := step_retired (m := m) (by rw [_h])
  rw [_h] at hc hs
  dsimp only at hc hs
  rw [hc]
  omega

/-- Ends because every step on the way spends some of the budget. -/
def run (m : Machine) : Run :=
  m.runFrom 0 #[]

end Machine

end MagicAssembly
