import MagicAssembly.Proofs.Listing
import MagicAssembly.Proofs.Reconfiguration

namespace MagicAssembly

namespace Machine

theorem spent_iff {m : Machine} :
    m.step.outcome = .budgetExhausted ↔
      m.status = .running ∧ m.config.stepBudget ≤ m.steps := by
  generalize hr : m.step = r
  cases stepCase hr with
  | latched status | finished status => simp [status]
  | spent status budget => simp [status, budget]
  | lost _ budget | past _ budget | undecoded _ budget | refused _ budget | retired _ budget =>
    simp [latch, complete, retire, Nat.not_le.mpr budget]

theorem Path.within_budget {m last : Machine} {path : List Retirement} (h : m.Path path last)
    (hm : m.steps ≤ m.config.stepBudget) : last.steps ≤ last.config.stepBudget := by
  have hlength := h.length_le
  rw [h.steps, h.config]
  omega

theorem run_final (m : Machine) (control : Control) : m.run.final ≠ .retired control := by
  obtain ⟨path, last, hpath, hstop⟩ := m.exists_path
  rw [run_eq hpath hstop]
  exact hstop control

section

variable {m : Machine} (config : Config)

/-- Where the budget does not end a run, a larger one changes nothing. -/
theorem run_within_budget (running : m.status = .running)
    (base : config.textBase = m.config.textBase)
    (budget : m.config.stepBudget ≤ config.stepBudget) (final : m.run.final ≠ .budgetExhausted) :
    (m.withConfig config).run.retired = m.run.retired ∧
      (m.withConfig config).run.final = m.run.final ∧
        (m.withConfig config).run.machine = m.run.machine.withConfig config := by
  obtain ⟨path, last, hpath, hstop⟩ := m.exists_path
  have hpath' := hpath.withConfig base budget
  have hunspent : last.steps < m.config.stepBudget := by
    rw [run_eq hpath hstop] at final
    rw [← hpath.config]
    exact Nat.lt_of_not_le fun hspent => final (spent_iff.mpr ⟨hpath.status running, hspent⟩)
  obtain ⟨hmachine, houtcome⟩ := last.step_withConfig config
    (by rw [hpath.config, base]) (by rw [hpath.config]; omega)
  have hstop' : (last.withConfig config).Stops := by
    intro control
    rw [houtcome]
    exact hstop control
  rw [run_eq hpath hstop, run_eq hpath' hstop']
  exact ⟨rfl, houtcome, hmachine⟩

/-- Where it does, the run is the beginning of a longer one. -/
theorem run_spent (fresh : m.steps ≤ m.config.stepBudget)
    (base : config.textBase = m.config.textBase)
    (budget : m.config.stepBudget ≤ config.stepBudget) (final : m.run.final = .budgetExhausted) :
    m.steps + m.run.retired = m.config.stepBudget ∧
      (∀ k < m.run.retired, ∃ control,
        (after attempt k (m.withConfig config)).step.outcome = .retired control) ∧
      after attempt m.run.retired (m.withConfig config) = m.run.machine.withConfig config := by
  obtain ⟨path, last, hpath, hstop⟩ := m.exists_path
  have hpath' := hpath.withConfig base budget
  rw [run_eq hpath hstop] at final ⊢
  have houtcome : last.step.outcome = .budgetExhausted := final
  have hspent := (spent_iff.mp houtcome).2
  have hwithin := hpath.within_budget fresh
  have hlast : last.step.machine = last := by
    have hrests := last.step_rests
    rwa [Rests, houtcome] at hrests
  refine ⟨?_, ?_, ?_⟩
  · rw [← hpath.steps, ← hpath.config]
    exact Nat.le_antisymm hwithin hspent
  · intro k hk
    exact ⟨_, (hpath'.retires_at k hk).outcome⟩
  · rw [hpath'.after_eq, hlast]

end

/-- A run that ends within its budget ends the same within a larger one, and a run that spends its
budget is the beginning of the run with a larger one. -/
theorem budget_truncates (config : Config) (catalog : Catalog) (program : Program) {b₁ b₂ : Nat}
    (h : b₁ ≤ b₂) :
    let start b := (create { config with stepBudget := b } catalog).load program
    let r₁ := (start b₁).run
    let r₂ := (start b₂).run
    ((r₁.final = .completed ∨ ∃ kind, r₁.final = .fault kind) →
      r₂.retired = r₁.retired ∧ r₂.final = r₁.final ∧
        r₂.machine = { r₁.machine with config.stepBudget := b₂ }) ∧
    (r₁.final = .budgetExhausted →
      r₁.retired = b₁ ∧
        (∀ k < b₁, ∃ control, (after attempt k (start b₂)).step.outcome = .retired control) ∧
          after attempt b₁ (start b₂) = { r₁.machine with config.stepBudget := b₂ }) ∧
    ∀ control, r₁.final ≠ .retired control := by
  intro start r₁ r₂
  have hstart : start b₂ = (start b₁).withConfig { config with stepBudget := b₂ } :=
    boot_withConfig { config with stepBudget := b₁ } { config with stepBudget := b₂ } rfl rfl rfl
      catalog program
  have hconfig : r₁.machine.withConfig { config with stepBudget := b₂ } =
      { r₁.machine with config.stepBudget := b₂ } := by
    simp only [withConfig, r₁, run_config]
    rfl
  rw [← hconfig]
  refine ⟨?_, ?_, run_final _⟩
  · intro hfinal
    have hfinal : r₁.final ≠ .budgetExhausted := by
      rcases hfinal with hfinal | ⟨kind, hfinal⟩ <;> simp [hfinal]
    have hsame := run_within_budget { config with stepBudget := b₂ } rfl rfl h hfinal
    rwa [← hstart] at hsame
  · intro hfinal
    obtain ⟨hsteps, hretire, hafter⟩ :=
      run_spent { config with stepBudget := b₂ } (Nat.zero_le _) rfl h hfinal
    have hretired : r₁.retired = b₁ := (Nat.zero_add _).symm.trans hsteps
    rw [← hstart] at hretire hafter
    change ∀ k < r₁.retired, _ at hretire
    change after attempt r₁.retired _ = _ at hafter
    rw [hretired] at hretire hafter
    exact ⟨hretired, hretire, hafter⟩

/-- One statement is done within two steps and not within one. -/
theorem budget_truncates_charges :
    let charge : Program := Program.empty.push 0x00080015 "chrg $t0"
    let start b p := (create { stepBudget := b } Listing.chargeLoop.catalog).load p
    (2 ≤ 5 ∧ (start 2 charge).run.final = .completed ∧ (start 5 charge).run.final = .completed) ∧
      1 ≤ 5 ∧ (start 1 charge).run.final = .budgetExhausted ∧ (start 1 charge).run.retired = 1 ∧
        after attempt 1 (start 5 charge) =
          { (start 1 charge).run.machine with config.stepBudget := 5 } := by
  intro charge start
  have hends := budget_truncates {} Listing.chargeLoop.catalog charge
    (show 2 ≤ 5 by decide)
  have hspends := budget_truncates {} Listing.chargeLoop.catalog charge
    (show 1 ≤ 5 by decide)
  have hcompleted : (start 2 charge).run.final = .completed := by decide +kernel
  have hspent : (start 1 charge).run.final = .budgetExhausted := by decide +kernel
  obtain ⟨hretired, _, hafter⟩ := hspends.2.1 hspent
  refine ⟨⟨by decide, hcompleted, ?_⟩, by decide, hspent, hretired, hafter⟩
  rw [← hcompleted]
  exact (hends.1 (.inl hcompleted)).2.1

end Machine

end MagicAssembly
