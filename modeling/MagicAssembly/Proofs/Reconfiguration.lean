import MagicAssembly.Proofs.RunPath

namespace MagicAssembly

namespace Machine

/-- The same machine under another configuration. -/
def withConfig (m : Machine) (config : Config) : Machine :=
  { m with config }

section

variable {m last : Machine} {config : Config} {path : List Retirement}

theorem fetch_withConfig (base : config.textBase = m.config.textBase) :
    (m.withConfig config).fetch = m.fetch := by
  simp only [fetch, statementIndex, withConfig, base]

/-- A configuration decides of a step no more than what is fetched, whether the budget is spent, and
what is reported. -/
theorem StepCase.withConfig {r : Step} (h : StepCase m r)
    (base : config.textBase = m.config.textBase)
    (budget : config.stepBudget ≤ m.steps ↔ m.config.stepBudget ≤ m.steps) :
    ∃ r', StepCase (m.withConfig config) r' ∧ r'.machine = r.machine.withConfig config ∧
      r'.outcome = r.outcome := by
  have hfetch := fetch_withConfig base
  have hbudget (h : m.steps < m.config.stepBudget) : m.steps < config.stepBudget :=
    Nat.lt_of_not_le (mt budget.mp (Nat.not_le.mpr h))
  cases h with
  | latched status => exact ⟨_, .latched status, rfl, rfl⟩
  | finished status => exact ⟨_, .finished status, rfl, rfl⟩
  | spent status spent => exact ⟨_, .spent status (budget.mpr spent), rfl, rfl⟩
  | lost status left fetch =>
    exact ⟨_, .lost status (hbudget left) (hfetch.trans fetch), rfl, rfl⟩
  | past status left fetch =>
    exact ⟨_, .past status (hbudget left) (hfetch.trans fetch), rfl, rfl⟩
  | undecoded status left fetch decode =>
    exact ⟨_, .undecoded status (hbudget left) (hfetch.trans fetch) decode, rfl, rfl⟩
  | refused status left fetch decode effect =>
    exact ⟨_, .refused status (hbudget left) (hfetch.trans fetch) decode effect, rfl, rfl⟩
  | retired status left fetch decode effect =>
    exact ⟨_, .retired status (hbudget left) (hfetch.trans fetch) decode effect, rfl, rfl⟩

theorem step_withConfig (m : Machine) (config : Config)
    (base : config.textBase = m.config.textBase)
    (budget : config.stepBudget ≤ m.steps ↔ m.config.stepBudget ≤ m.steps) :
    (m.withConfig config).step.machine = m.step.machine.withConfig config ∧
      (m.withConfig config).step.outcome = m.step.outcome := by
  obtain ⟨r, hcase, hmachine, houtcome⟩ :=
    (stepCase (rfl : m.step = m.step)).withConfig base budget
  rw [hcase.step_eq]
  exact ⟨hmachine, houtcome⟩

/-- What retires within a budget retires within a larger one. -/
theorem Retires.withConfig {x : Retirement} (h : m.Retires x)
    (base : config.textBase = m.config.textBase)
    (budget : m.config.stepBudget ≤ config.stepBudget) :
    (m.withConfig config).Retires x ∧
      (m.withConfig config).step.machine = m.step.machine.withConfig config := by
  obtain ⟨hpc, houtcome, s, d, storage, hfetch, hword, hdecode, hrule, hmachine⟩ := h
  have hleft := (step_retired houtcome).2
  have hbudget : config.stepBudget ≤ m.steps ↔ m.config.stepBudget ≤ m.steps := by omega
  obtain ⟨hmachine', houtcome'⟩ := step_withConfig m config base hbudget
  refine ⟨⟨hpc, houtcome'.trans houtcome, s, d, storage, (fetch_withConfig base).trans hfetch,
    hword, hdecode, hrule, ?_⟩, hmachine'⟩
  rw [hmachine', hmachine]
  rfl

theorem Path.withConfig (h : m.Path path last) (base : config.textBase = m.config.textBase)
    (budget : m.config.stepBudget ≤ config.stepBudget) :
    (m.withConfig config).Path path (last.withConfig config) := by
  induction h with
  | stay => exact .stay _
  | @go m _ _ _ retires _ ih =>
    obtain ⟨hretires, hmachine⟩ := retires.withConfig base budget
    refine .go hretires ?_
    rw [hmachine]
    apply ih <;> rwa [step_config]

end

/-- Where words are placed depends on the text base alone. -/
theorem place_withConfig {config config' : Config} (base : config'.textBase = config.textBase)
    (index : Nat) (ss : List Statement) (memory : Memory) :
    place config' index ss memory = place config index ss memory := by
  have haddress : config'.address? = config.address? := by
    funext i
    simp only [Config.address?, base]
  induction ss generalizing index memory with
  | nil => rfl
  | cons s ss ih => simp only [place, ih, haddress]

theorem boot_withConfig (config config' : Config) (base : config'.textBase = config.textBase)
    (global : config'.globalPointer = config.globalPointer)
    (stack : config'.stackPointer = config.stackPointer) (catalog : Catalog) (program : Program) :
    boot config' catalog program = (boot config catalog program).withConfig config' := by
  simp only [boot, initialStorage, place_withConfig base, base, global, stack]
  rfl

end Machine

end MagicAssembly
