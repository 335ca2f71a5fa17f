import MagicAssembly.Machine.Run

namespace MagicAssembly

namespace Machine

def attempt (m : Machine) : Machine × StepOutcome :=
  (m.step.machine, m.step.outcome)

/-- What happens to a fetched statement, told by the effect of its instruction. -/
theorem perform_eq (m : Machine) (s : Statement) :
    m.perform s =
      match m.catalog.decode s.word m.pc with
      | none =>
        m.latch [.instructionStart m.pc s.word] ⟨dataText s.word, m.pc, .illegalEncoding s.word⟩
      | some d =>
        match (d.instruction s.tokens).effect m.program.labels m.storage with
        | .error fault =>
          m.latch [.instructionStart m.pc s.word] ⟨d.describe s.tokens, m.pc, fault⟩
        | .ok e =>
          { m with storage := m.storage.commit e.writes }.retire
            [.instructionStart m.pc s.word] e.control := by
  obtain ⟨config, catalog, program, storage, pc, steps, status⟩ := m
  obtain ⟨word, tokens⟩ := s
  simp only [perform]
  cases hd : catalog.decode word pc with
  | none => rfl
  | some d =>
    simp only [Decoded.execute, Instruction.execute]
    cases (d.instruction tokens).effect program.labels storage <;> rfl

theorem step_eq_perform {m : Machine} {s : Statement} (status : m.status = .running)
    (budget : m.steps < m.config.stepBudget) (fetch : m.fetch = .ok (some s)) :
    m.step = m.perform s := by
  simp only [step, status, if_neg (Nat.not_le.mpr budget), fetch]

/-- All that a step can do, with the guards that lead there. -/
inductive StepCase (m : Machine) : Step → Prop
  | latched {e : ExecutionError} (status : m.status = .faulted e) :
      StepCase m ⟨m, .fault e.fault.kind, []⟩
  | finished (status : m.status = .completed) : StepCase m ⟨m, .completed, []⟩
  | spent (status : m.status = .running) (budget : m.config.stepBudget ≤ m.steps) :
      StepCase m ⟨m, .budgetExhausted, []⟩
  | lost {e : AddressError} (status : m.status = .running)
      (budget : m.steps < m.config.stepBudget) (fetch : m.fetch = .error e) :
      StepCase m (m.latch [] ⟨"(fetch)", m.pc, .address e⟩)
  | past (status : m.status = .running) (budget : m.steps < m.config.stepBudget)
      (fetch : m.fetch = .ok none) : StepCase m m.complete
  | undecoded {s : Statement} (status : m.status = .running)
      (budget : m.steps < m.config.stepBudget) (fetch : m.fetch = .ok (some s))
      (decode : m.catalog.decode s.word m.pc = none) :
      StepCase m (m.latch [.instructionStart m.pc s.word]
        ⟨dataText s.word, m.pc, .illegalEncoding s.word⟩)
  | refused {s : Statement} {d : Decoded} {fault : Fault} (status : m.status = .running)
      (budget : m.steps < m.config.stepBudget) (fetch : m.fetch = .ok (some s))
      (decode : m.catalog.decode s.word m.pc = some d)
      (effect : (d.instruction s.tokens).effect m.program.labels m.storage = .error fault) :
      StepCase m (m.latch [.instructionStart m.pc s.word] ⟨d.describe s.tokens, m.pc, fault⟩)
  | retired {s : Statement} {d : Decoded} {e : Effect} (status : m.status = .running)
      (budget : m.steps < m.config.stepBudget) (fetch : m.fetch = .ok (some s))
      (decode : m.catalog.decode s.word m.pc = some d)
      (effect : (d.instruction s.tokens).effect m.program.labels m.storage = .ok e) :
      StepCase m ({ m with storage := m.storage.commit e.writes }.retire
        [.instructionStart m.pc s.word] e.control)

theorem stepCase {m : Machine} {r : Step} (h : m.step = r) : StepCase m r := by
  subst h
  unfold step
  split
  · next e hs => exact .latched hs
  · next hs => exact .finished hs
  · next hs =>
    split
    · next hb => exact .spent hs hb
    · next hb =>
      have hb : m.steps < m.config.stepBudget := Nat.lt_of_not_le hb
      split
      · next e hf => exact .lost hs hb hf
      · next hf => exact .past hs hb hf
      · next s hf =>
        rw [perform_eq]
        cases hd : m.catalog.decode s.word m.pc with
        | none => exact .undecoded hs hb hf hd
        | some d =>
          dsimp only
          cases he : (d.instruction s.tokens).effect m.program.labels m.storage with
          | error fault => exact .refused hs hb hf hd he
          | ok e => exact .retired hs hb hf hd he

/-- The guards leave no choice. -/
theorem StepCase.step_eq {m : Machine} {r : Step} (h : StepCase m r) : m.step = r := by
  cases h with
  | latched status => simp only [step, status]
  | finished status => simp only [step, status]
  | spent status budget => simp only [step, status, if_pos budget]
  | lost status budget fetch => simp only [step, status, if_neg (Nat.not_le.mpr budget), fetch]
  | past status budget fetch => simp only [step, status, if_neg (Nat.not_le.mpr budget), fetch]
  | undecoded status budget fetch decode =>
    simp only [step_eq_perform status budget fetch, perform_eq, decode]
  | refused status budget fetch decode effect =>
    simp only [step_eq_perform status budget fetch, perform_eq, decode, effect]
  | retired status budget fetch decode effect =>
    simp only [step_eq_perform status budget fetch, perform_eq, decode, effect]

theorem step_catalog (m : Machine) : m.step.machine.catalog = m.catalog := by
  generalize h : m.step = r
  cases stepCase h <;> rfl

theorem step_program (m : Machine) : m.step.machine.program = m.program := by
  generalize h : m.step = r
  cases stepCase h <;> rfl

end Machine

end MagicAssembly
