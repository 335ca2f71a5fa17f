import Mathlib.Data.List.Basic
import MagicAssembly.Proofs.Listing
import MagicAssembly.Proofs.Reconfiguration

namespace MagicAssembly

/-- How a run ends, with what it reports after its last retired instruction. -/
inductive Run.Ends (r : Run) : List TraceEvent → Prop
  | completed (final : r.final = .completed) : Ends r [.programCompleted r.machine.pc r.retired]
  | spent (final : r.final = .budgetExhausted) : Ends r []
  | lost {e : AddressError} {kind : FaultKind} (final : r.final = .fault kind)
      (fetch : r.machine.fetch = .error e) : Ends r [.faultRaised kind r.machine.pc]
  | refused {s : Statement} {kind : FaultKind} (final : r.final = .fault kind)
      (fetch : r.machine.fetch = .ok (some s)) :
      Ends r [.instructionStart r.machine.pc s.word, .faultRaised kind r.machine.pc]

namespace Machine

theorem Stops.ends {m : Machine} (h : m.Stops) (running : m.status = .running)
    (tracing : m.config.tracing = true) (events : List TraceEvent) :
    Run.Ends ⟨m.step.machine, m.steps, m.step.outcome, events⟩ m.step.events := by
  unfold Stops at h
  have htraced (events : List TraceEvent) : m.traced events = events := by simp [traced, tracing]
  generalize hr : m.step = r at h
  cases stepCase hr with
  | latched status => cases running.symm.trans status
  | finished status => cases running.symm.trans status
  | spent => exact .spent rfl
  | lost status budget fetch =>
    simp only [latch, htraced]
    exact .lost rfl fetch
  | past =>
    simp only [complete, htraced]
    exact .completed rfl
  | undecoded status budget fetch =>
    simp only [latch, htraced]
    exact .refused rfl fetch
  | refused status budget fetch =>
    simp only [latch, htraced]
    exact .refused rfl fetch
  | retired => exact absurd rfl (h _)

/-- The events of a run are those of its retired instructions, and then those of its end. -/
theorem run_events {m : Machine} (running : m.status = .running) (fresh : m.steps = 0)
    (tracing : m.config.tracing = true) :
    ∃ path tail, path.length = m.run.retired ∧
      (∀ k (hk : k < path.length), (after attempt k m).Retires path[k]) ∧
      m.run.machine = (after attempt path.length m).step.machine ∧
      Retirement.Follows m.pc path m.run.machine.pc ∧
      m.run.events = path.flatMap Retirement.events ++ tail ∧ m.run.Ends tail := by
  obtain ⟨path, last, hpath, hstop⟩ := m.exists_path
  obtain ⟨status, hlast⟩ := hstop.keeps
  have hcount : last.steps = path.length := by
    rw [hpath.steps, fresh, Nat.zero_add]
  have hconfig : last.config.tracing = true := by
    rw [hpath.config, tracing]
  refine ⟨path, last.step.events, ?_, hpath.retires_at, ?_, ?_, ?_, ?_⟩
  · rw [run_eq hpath hstop]
  · rw [run_eq hpath hstop, hpath.after_eq]
  · rw [run_eq hpath hstop, hlast]
    exact hpath.follows
  · rw [run_eq hpath hstop, traced, if_pos tracing]
  · rw [run_eq hpath hstop, ← hcount]
    exact hstop.ends (hpath.status running) hconfig _

/-- The same machine, which reports what it does or does not. -/
def setTracing (m : Machine) (tracing : Bool) : Machine :=
  { m with config.tracing := tracing }

variable {m last : Machine} {path : List Retirement}

theorem step_silent (h : m.config.tracing = false) : m.step.events = [] := by
  generalize hr : m.step = r
  cases stepCase hr <;> simp [latch, complete, retire, traced, h]

theorem step_setTracing (m : Machine) (tracing : Bool) :
    (m.setTracing tracing).step.machine = m.step.machine.setTracing tracing ∧
      (m.setTracing tracing).step.outcome = m.step.outcome := by
  obtain ⟨hmachine, houtcome⟩ := m.step_withConfig { m.config with tracing } rfl Iff.rfl
  refine ⟨hmachine.trans ?_, houtcome⟩
  simp only [setTracing, withConfig, step_config]

theorem Stops.setTracing (h : m.Stops) (tracing : Bool) : (m.setTracing tracing).Stops := by
  intro control
  rw [(m.step_setTracing tracing).2]
  exact h control

theorem Path.setTracing (h : m.Path path last) (tracing : Bool) :
    (m.setTracing tracing).Path path (last.setTracing tracing) := by
  have hlast : last.setTracing tracing = last.withConfig { m.config with tracing } := by
    simp only [Machine.setTracing, Machine.withConfig, h.config]
  rw [hlast]
  exact h.withConfig rfl (Nat.le_refl _)

/-- A machine that reports nothing runs as one that does. -/
theorem run_setTracing (m : Machine) :
    (m.setTracing false).run = ⟨m.run.machine.setTracing false, m.run.retired, m.run.final, []⟩ := by
  obtain ⟨path, last, hpath, hstop⟩ := m.exists_path
  obtain ⟨hmachine, houtcome⟩ := last.step_setTracing false
  rw [run_eq hpath hstop, run_eq (hpath.setTracing false) (hstop.setTracing false), hmachine,
    houtcome, step_silent rfl]
  rfl

/-- Where the program lies does not depend on what is reported. -/
theorem boot_setTracing (config : Config) (catalog : Catalog) (program : Program)
    (tracing : Bool) :
    boot { config with tracing } catalog program =
      (boot config catalog program).setTracing tracing :=
  boot_withConfig config { config with tracing } rfl rfl rfl catalog program

/-- The trace of a run tells its retired instructions one by one, each with where it went, and then
how the run ended. Without a trace the run is the same. -/
theorem run_told (config : Config) (catalog : Catalog) (program : Program) :
    let start := (create { config with tracing := true } catalog).load program
    let r := start.run
    (∃ path tail, path.length = r.retired ∧
      (∀ k (hk : k < path.length), (after attempt k start).Retires path[k]) ∧
      r.machine = (after attempt path.length start).step.machine ∧
      Retirement.Follows config.textBase path r.machine.pc ∧
      r.events = path.flatMap Retirement.events ++ tail ∧ r.Ends tail) ∧
    ((create { config with tracing := false } catalog).load program).run =
      ⟨r.machine.setTracing false, r.retired, r.final, []⟩ := by
  refine ⟨run_events rfl rfl rfl, ?_⟩
  rw [← run_setTracing]
  exact congrArg run (boot_setTracing { config with tracing := true } catalog program false)

/-- A loop that is cut off after its first line has come round again. -/
theorem run_told_chargeLoop :
    let start tracing := (create { stepBudget := 3, tracing } Listing.chargeLoop.catalog).load
      Listing.chargeLoopProgram
    (start true).run.events =
        [.instructionStart 0x400000 0x00080015, .instructionStart 0x400004 0x1000FFFE,
          .controlTransfer 0x400004 0x400000, .instructionStart 0x400000 0x00080015] ∧
      (start true).run.machine.pc = 0x400004 ∧ (start false).run.events = [] := by
  intro start
  obtain ⟨⟨path, tail, hlength, hretires, _, hfollows, hevents, hends⟩, hsilent⟩ :=
    run_told { stepBudget := 3 } Listing.chargeLoop.catalog Listing.chargeLoopProgram
  have hretired : (start true).run.retired = 3 := by decide +kernel
  have hspent : (start true).run.final = .budgetExhausted := by decide +kernel
  obtain ⟨x, y, z, rfl⟩ := List.length_eq_three.mp (hlength.trans hretired)
  have hx : x = ⟨0x400000, 0x00080015, .sequential⟩ :=
    (hretires 0 (by simp)).eq (s := ⟨0x00080015, ["chrg", "$t0"]⟩) (by decide +kernel)
      (by decide +kernel)
  have hy : y = ⟨0x400004, 0x1000FFFE, .transfer 0x400000⟩ :=
    (hretires 1 (by simp)).eq (s := ⟨0x1000FFFE, ["ward", "$zero", "$zero", "top"]⟩)
      (by decide +kernel) (by decide +kernel)
  have hz : z = ⟨0x400000, 0x00080015, .sequential⟩ :=
    (hretires 2 (by simp)).eq (s := ⟨0x00080015, ["chrg", "$t0"]⟩) (by decide +kernel)
      (by decide +kernel)
  subst hx hy hz
  have htail : tail = [] := by
    cases hends with
    | spent => rfl
    | completed final | lost final | refused final => cases final.symm.trans hspent
  subst htail
  exact ⟨hevents, hfollows.2.2.2, congrArg Run.events hsilent⟩

end Machine

end MagicAssembly
