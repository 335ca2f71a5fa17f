import Mathlib.Algebra.Group.Nat.Defs
import MagicAssembly.Proofs.Fetch
import MagicAssembly.Proofs.RunPath
import MagicAssembly.Proofs.StandardTable

namespace MagicAssembly

namespace Machine

/-- Where the words of the program end, counted without wrapping. -/
def textEnd (m : Machine) : Nat :=
  m.config.textBase.toNat + 4 * m.program.size

/-- The machine has just gone on behind its last statement. The `pc` has wrapped if that is the end
of the address space. -/
structure Beyond (m : Machine) : Prop where
  status : m.status = .running
  nonempty : 0 < m.program.size
  last : m.textEnd < 2 ^ 32 + 4
  pc : m.pc.toNat = m.textEnd % 2 ^ 32

/-- Control that leaves the last statement in order goes behind it. -/
theorem beyond_of_retired {m : Machine}
    (last : m.statementAddress? (m.program.size - 1) = some m.pc)
    (retired : m.step.outcome = .retired .sequential) : m.step.machine.Beyond := by
  obtain ⟨s, _, _, status, hfetch, _, _, _, hstep⟩ := effect_of_retired retired
  obtain ⟨i, haddress, hs⟩ := fetch_eq_some_iff.mp hfetch
  obtain ⟨hi, _⟩ := Array.getElem?_eq_some_iff.mp hs
  have hsize : i < m.program.size := hi
  have hpc := m.pc.isLt
  have hfour : (4 : Word).toNat = 4 := rfl
  have hlast : m.pc.toNat = m.config.textBase.toNat + 4 * (m.program.size - 1) :=
    Config.address_eq_some_iff.mp last
  rw [hstep]
  refine ⟨status, by dsimp only [retire]; omega, ?_, ?_⟩
  · simp only [textEnd, retire]
    omega
  · simp only [textEnd, retire, Control.next, BitVec.toNat_add, hfour]
    omega

theorem step_textEnd (m : Machine) : m.step.machine.textEnd = m.textEnd := by
  simp only [textEnd, step_config, step_program]

theorem perform_ne_completed (m : Machine) (s : Statement) :
    (m.perform s).outcome ≠ .completed := by
  rw [perform_eq]
  split
  · simp [latch]
  · split <;> simp [latch, retire]

namespace Beyond

variable {m : Machine}

theorem completes (h : m.Beyond) (left : m.steps < m.config.stepBudget)
    (room : m.textEnd < 2 ^ 32) : m.step = m.complete := by
  obtain ⟨status, _, _, hpc⟩ := h
  have hfetch : m.fetch = .ok none := by
    rw [fetch_eq_none_iff]
    unfold textEnd at hpc room
    omega
  exact (StepCase.past status left hfetch).step_eq

/-- Behind the address space comes its beginning. -/
theorem wrapped (h : m.Beyond) (full : 2 ^ 32 ≤ m.textEnd) :
    m.pc.toNat = m.config.textBase.toNat % 4 := by
  obtain ⟨_, _, hlast, hpc⟩ := h
  unfold textEnd at hlast hpc full
  omega

theorem faults (h : m.Beyond) (left : m.steps < m.config.stepBudget) (full : 2 ^ 32 ≤ m.textEnd)
    (base : 4 ≤ m.config.textBase.toNat) :
    m.step = m.latch [] ⟨"(fetch)", m.pc, .address ⟨m.pc, .outOfRange⟩⟩ := by
  have hpc := h.wrapped full
  have hfetch : m.fetch = .error ⟨m.pc, .outOfRange⟩ :=
    fetch_eq_error_iff.mpr ⟨.outOfRange, if_pos (by omega), rfl⟩
  exact (StepCase.lost h.status left hfetch).step_eq

theorem starts_over (h : m.Beyond) (left : m.steps < m.config.stepBudget)
    (full : 2 ^ 32 ≤ m.textEnd) (base : m.config.textBase.toNat < 4) :
    ∃ s, m.program.statements[0]? = some s ∧ m.step = m.perform s := by
  have hpc := h.wrapped full
  have hs := Array.getElem?_eq_getElem h.nonempty
  have hfetch := fetch_eq_some_iff.mpr ⟨0, Config.address_eq_some_iff.mpr (by omega), hs⟩
  exact ⟨_, hs, step_eq_perform h.status left hfetch⟩

theorem completed_iff (h : m.Beyond) (left : m.steps < m.config.stepBudget) :
    m.step.outcome = .completed ↔ m.textEnd < 2 ^ 32 := by
  constructor
  · intro hcompleted
    refine Nat.lt_of_not_le fun hfull => ?_
    by_cases hbase : 4 ≤ m.config.textBase.toNat
    · rw [h.faults left hfull hbase] at hcompleted
      cases hcompleted
    · obtain ⟨s, _, hstep⟩ := h.starts_over left hfull (Nat.lt_of_not_le hbase)
      rw [hstep] at hcompleted
      exact m.perform_ne_completed s hcompleted
  · intro hroom
    rw [h.completes left hroom]
    rfl

end Beyond

/-- Running past the last statement completes the program if the address space goes on behind it.
Otherwise the `pc` wraps, and what is fetched next lies in front of the program, or is its first
statement once more where the program fills the address space. -/
theorem completed_past_last_iff {m : Machine}
    (last : m.statementAddress? (m.program.size - 1) = some m.pc)
    (retired : m.step.outcome = .retired .sequential)
    (left : m.step.machine.steps < m.config.stepBudget) :
    let next := m.step.machine
    (next.step.outcome = .completed ↔ m.textEnd < 2 ^ 32) ∧
    (m.textEnd < 2 ^ 32 → next.step.machine.runState = .completed) ∧
    (2 ^ 32 ≤ m.textEnd →
      next.pc.toNat = m.config.textBase.toNat % 4 ∧
      (4 ≤ m.config.textBase.toNat → next.step.outcome = .fault .memory ∧
        next.step.machine.lastError? =
          some ⟨"(fetch)", next.pc, .address ⟨next.pc, .outOfRange⟩⟩) ∧
      (m.config.textBase.toNat < 4 →
        ∃ s, m.program.statements[0]? = some s ∧ next.step = next.perform s)) := by
  have hbeyond := beyond_of_retired last retired
  rw [← step_config] at left
  rw [← step_textEnd, ← step_config, ← step_program]
  refine ⟨hbeyond.completed_iff left, fun hroom => ?_, fun hfull =>
    ⟨hbeyond.wrapped hfull, fun hbase => ?_, hbeyond.starts_over left hfull⟩⟩
  · rw [hbeyond.completes left hroom]
    rfl
  · rw [hbeyond.faults left hfull hbase]
    exact ⟨rfl, rfl⟩

/-- A program of one statement, which counts in `$t0`. -/
def oneCharge : Program :=
  Program.empty.push 0x00080015 "chrg $t0"

def oneChargeAt (catalog : Catalog) (base : Word) : Machine :=
  (create { textBase := base } catalog).load oneCharge

theorem oneCharge_textEnd (c : Catalog) (base : Word) :
    (oneChargeAt c base).textEnd = base.toNat + 4 :=
  rfl

/-- It retires wherever it stands, as its first statement and its last. -/
theorem oneCharge_retires {c : Catalog} (hc : Catalog.standard = .ok c) (base : Word) :
    let m := oneChargeAt c base
    m.statementAddress? (m.program.size - 1) = some m.pc ∧
      m.step.outcome = .retired .sequential ∧ m.step.machine.steps < m.config.stepBudget := by
  intro m
  have hbudget (n : Nat) (h : n < defaultStepBudget) : n < m.config.stepBudget := h
  have haddress : m.statementAddress? (m.program.size - 1) = some m.pc :=
    Config.address_eq_some_iff.mpr rfl
  have hfetch : m.fetch = .ok (some ⟨0x00080015, tokenize "chrg $t0"⟩) :=
    fetch_eq_some_iff.mpr ⟨0, haddress, rfl⟩
  have hword : Opcode.charge.template.Matches 0x00080015 := by decide
  obtain ⟨d, hdecode, hop⟩ := Catalog.standard_decodes hc hword m.pc
  obtain ⟨e, heffect, hcontrol⟩ : ∃ e,
      (d.instruction (tokenize "chrg $t0")).effect m.program.labels m.storage = .ok e ∧
        e.control = .sequential := by
    rw [Decoded.instruction, hop]
    exact ⟨_, rfl, rfl⟩
  rw [(StepCase.retired rfl (hbudget 0 (by decide)) hfetch hdecode heffect).step_eq]
  exact ⟨haddress, congrArg StepOutcome.retired hcontrol, hbudget 1 (by decide)⟩

/-- It completes where a word is left behind it and faults at the end of the address space. -/
theorem oneCharge_past_last :
    ∃ c, Catalog.standard = .ok c ∧
      (∀ base, let m := oneChargeAt c base
        m.statementAddress? (m.program.size - 1) = some m.pc ∧
          m.step.outcome = .retired .sequential ∧ m.step.machine.steps < m.config.stepBudget) ∧
      (oneChargeAt c 0xFFFFFFF8).step.machine.step.outcome = .completed ∧
      (oneChargeAt c 0xFFFFFFFC).step.machine.step.outcome = .fault .memory := by
  obtain ⟨c, hc⟩ := Catalog.standard_ok
  have hretires := oneCharge_retires hc
  have hpast (base : Word) :=
    completed_past_last_iff (hretires base).1 (hretires base).2.1 (hretires base).2.2
  have hroom : (oneChargeAt c 0xFFFFFFF8).textEnd < 2 ^ 32 := by
    rw [oneCharge_textEnd]
    decide
  have hfull : 2 ^ 32 ≤ (oneChargeAt c 0xFFFFFFFC).textEnd := by
    rw [oneCharge_textEnd]
    decide
  have hbase : 4 ≤ (oneChargeAt c 0xFFFFFFFC).config.textBase.toNat := by
    change 4 ≤ (0xFFFFFFFC : Word).toNat
    decide
  exact ⟨c, hc, hretires, (hpast 0xFFFFFFF8).1.mpr hroom,
    (((hpast 0xFFFFFFFC).2.2 hfull).2.1 hbase).1⟩

/-- So running past the last statement does not complete every program whose statements all have an
address. -/
theorem lastWord_not_completed :
    ∃ c, Catalog.standard = .ok c ∧
      let m := oneChargeAt c 0xFFFFFFFC
      0 < m.program.size ∧ (∀ i < m.program.size, ∃ a, m.statementAddress? i = some a) ∧
      m.runState = .running ∧ m.statementAddress? (m.program.size - 1) = some m.pc ∧
      m.step.outcome = .retired .sequential ∧ m.step.machine.steps < m.config.stepBudget ∧
      ¬(m.step.machine.step.outcome = .completed ∧
        m.step.machine.step.machine.runState = .completed) := by
  obtain ⟨c, hc⟩ := Catalog.standard_ok
  obtain ⟨hlast, hretired, hleft⟩ := oneCharge_retires hc 0xFFFFFFFC
  refine ⟨c, hc, Nat.one_pos, ?_, rfl, hlast, hretired, hleft, ?_⟩
  · intro i hi
    obtain rfl : i = 0 := Nat.lt_one_iff.mp hi
    exact ⟨_, hlast⟩
  · rintro ⟨hcompleted, _⟩
    have hroom := ((beyond_of_retired hlast hretired).completed_iff (by rwa [step_config])).mp
      hcompleted
    rw [step_textEnd, oneCharge_textEnd] at hroom
    exact absurd hroom (by decide)

end Machine

end MagicAssembly
