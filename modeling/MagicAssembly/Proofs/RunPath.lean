import MagicAssembly.Proofs.Atomicity
import MagicAssembly.Proofs.Lockstep

namespace MagicAssembly

/-- An instruction that has retired: where it stood, its word, and how its rule went on. -/
structure Retirement where
  pc : Word
  word : Word
  control : Control

namespace Retirement

/-- What a trace shows of it: where it stood, and where it went if that was not the next word. -/
def events : Retirement → List TraceEvent
  | ⟨pc, word, .sequential⟩ => [.instructionStart pc word]
  | ⟨pc, word, .transfer target⟩ => [.instructionStart pc word, .controlTransfer pc target]

/-- Where the instruction after it stands. -/
def next : Retirement → Word
  | ⟨pc, _, .sequential⟩ => pc + 4
  | ⟨_, _, .transfer target⟩ => target

/-- Each instruction stands where the one before it went on. -/
def Follows : Word → List Retirement → Word → Prop
  | pc, [], last => last = pc
  | pc, x :: path, last => x.pc = pc ∧ Follows x.next path last

theorem events_eq (x : Retirement) :
    x.events = .instructionStart x.pc x.word :: x.control.transferEvents x.pc := by
  obtain ⟨pc, word, control⟩ := x
  cases control <;> rfl

theorem next_eq (x : Retirement) : x.next = x.control.next x.pc := by
  obtain ⟨pc, word, control⟩ := x
  cases control <;> rfl

end Retirement

namespace Machine

/-- The statement at the `pc` is decoded and its rule carried out without a fault. -/
structure Retires (m : Machine) (x : Retirement) : Prop where
  pc : x.pc = m.pc
  outcome : m.step.outcome = .retired x.control
  rule : ∃ s d storage, m.fetch = .ok (some s) ∧ s.word = x.word ∧
    m.catalog.decode s.word m.pc = some d ∧
      d.execute s.tokens m.pc m.program.labels m.storage = (.ok x.control, storage) ∧
        m.step.machine = { m with storage, pc := x.next, steps := m.steps + 1 }

def Stops (m : Machine) : Prop :=
  ∀ control, m.step.outcome ≠ .retired control

theorem Stops.keeps {m : Machine} (h : m.Stops) : ∃ status, m.step.machine = { m with status } := by
  have hrests := m.step_rests
  unfold Rests at hrests
  cases houtcome : m.step.outcome with
  | retired control => exact absurd houtcome (h control)
  | completed =>
    rw [houtcome] at hrests
    exact ⟨_, hrests.2⟩
  | fault kind =>
    rw [houtcome] at hrests
    obtain ⟨e, _, _, hmachine⟩ := hrests
    exact ⟨_, hmachine⟩
  | budgetExhausted =>
    rw [houtcome] at hrests
    exact ⟨m.status, hrests⟩

/-- A retired instruction was fetched and decoded, and its rule had an effect. -/
theorem effect_of_retired {m : Machine} {control : Control}
    (h : m.step.outcome = .retired control) :
    ∃ s d e, m.status = .running ∧ m.fetch = .ok (some s) ∧
      m.catalog.decode s.word m.pc = some d ∧
      (d.instruction s.tokens).effect m.program.labels m.storage = .ok e ∧
      e.control = control ∧
      m.step = { m with storage := m.storage.commit e.writes }.retire
        [.instructionStart m.pc s.word] control := by
  generalize hr : m.step = r at h
  cases stepCase hr with
  | latched | finished | spent | lost | past | undecoded | refused => cases h
  | @retired s d e status budget fetch decode effect =>
    cases h
    exact ⟨s, d, e, status, fetch, decode, effect, rfl, rfl⟩

theorem retires_of_effect {m : Machine} {s : Statement} {d : Decoded} {e : Effect}
    (status : m.status = .running) (budget : m.steps < m.config.stepBudget)
    (fetch : m.fetch = .ok (some s)) (decode : m.catalog.decode s.word m.pc = some d)
    (effect : (d.instruction s.tokens).effect m.program.labels m.storage = .ok e) :
    m.Retires ⟨m.pc, s.word, e.control⟩ := by
  have hstep := (StepCase.retired status budget fetch decode effect).step_eq
  have hrule : d.execute s.tokens m.pc m.program.labels m.storage =
      (.ok e.control, m.storage.commit e.writes) := by
    simp only [Decoded.execute, Instruction.execute, effect]
    rfl
  refine ⟨rfl, ?_, s, d, _, fetch, rfl, decode, hrule, ?_⟩
  · rw [hstep]
    rfl
  · rw [hstep, Retirement.next_eq]
    rfl

theorem exists_retires {m : Machine} {control : Control} (h : m.step.outcome = .retired control) :
    ∃ x, m.Retires x := by
  obtain ⟨s, d, e, hstatus, hfetch, hdecode, heffect, _⟩ := effect_of_retired h
  exact ⟨_, retires_of_effect hstatus (step_retired h).2 hfetch hdecode heffect⟩

/-- What retires is the statement at the `pc`, as its step ends. -/
theorem Retires.eq {m : Machine} {x : Retirement} {s : Statement} {control : Control}
    (h : m.Retires x) (fetch : m.fetch = .ok (some s))
    (outcome : m.step.outcome = .retired control) : x = ⟨m.pc, s.word, control⟩ := by
  obtain ⟨pc, word, control'⟩ := x
  obtain ⟨hpc, houtcome, s', _, _, hfetch, hword, _⟩ := h
  cases hfetch.symm.trans fetch
  cases houtcome.symm.trans outcome
  dsimp only at hpc hword
  rw [hpc, ← hword]

theorem Retires.events {m : Machine} {x : Retirement} (h : m.Retires x) :
    m.step.events = m.traced x.events := by
  obtain ⟨hpc, houtcome, s, _, _, hfetch, hword, _⟩ := h
  obtain ⟨s', _, _, _, hfetch', _, _, _, hstep⟩ := effect_of_retired houtcome
  cases hfetch.symm.trans hfetch'
  rw [hstep, Retirement.events_eq, hpc, ← hword]
  rfl

theorem Retires.status {m : Machine} {x : Retirement} (h : m.Retires x) :
    m.status = .running ∧ m.step.machine.status = .running := by
  obtain ⟨_, _, _, hstatus, _, _, _, _, hstep⟩ := effect_of_retired h.outcome
  rw [hstep]
  exact ⟨hstatus, hstatus⟩

theorem Retires.moves {m : Machine} {x : Retirement} (h : m.Retires x) :
    m.step.machine.pc = x.next ∧ m.step.machine.steps = m.steps + 1 := by
  obtain ⟨_, _, _, _, _, _, _, _, _, hmachine⟩ := h
  rw [hmachine]
  exact ⟨rfl, rfl⟩

theorem traced_append (m : Machine) (before after : List TraceEvent) :
    m.traced (before ++ after) = m.traced before ++ m.traced after := by
  unfold traced
  split <;> rfl

theorem traced_step (m : Machine) (events : List TraceEvent) :
    m.step.machine.traced events = m.traced events := by
  rw [traced, traced, step_config]

/-- The instructions `path` retire one after the other and lead to `last`. -/
inductive Path : Machine → List Retirement → Machine → Prop
  | stay (m : Machine) : Path m [] m
  | go {m last : Machine} {x : Retirement} {path : List Retirement} (retires : m.Retires x)
      (rest : Path m.step.machine path last) : Path m (x :: path) last

theorem exists_path (m : Machine) : ∃ path last, m.Path path last ∧ last.Stops := by
  induction h : m.config.stepBudget - m.steps using Nat.strongRecOn generalizing m with
  | ind n ih =>
    by_cases hstop : m.Stops
    · exact ⟨[], m, .stay m, hstop⟩
    · obtain ⟨control, hcontrol⟩ : ∃ control, m.step.outcome = .retired control := by
        simpa [Stops] using hstop
      obtain ⟨hsteps, hbudget⟩ := step_retired hcontrol
      obtain ⟨x, hx⟩ := exists_retires hcontrol
      have hless : m.step.machine.config.stepBudget - m.step.machine.steps < n := by
        rw [step_config, hsteps]
        omega
      obtain ⟨path, last, hpath, hlast⟩ := ih _ hless _ rfl
      exact ⟨x :: path, last, .go hx hpath, hlast⟩

theorem runFrom_of_stops {m : Machine} (h : m.Stops) (retired : Nat) (events : Array TraceEvent) :
    m.runFrom retired events =
      ⟨m.step.machine, retired, m.step.outcome, (events ++ m.step.events).toList⟩ := by
  unfold runFrom
  split
  · next machine control more hstep => exact absurd (congrArg Step.outcome hstep) (h control)
  · next hstep => rw [hstep]

theorem runFrom_of_retires {m : Machine} {x : Retirement} (h : m.Retires x) (retired : Nat)
    (events : Array TraceEvent) :
    m.runFrom retired events =
      m.step.machine.runFrom (retired + 1) (events ++ m.step.events) := by
  rw [runFrom.eq_1]
  split
  · next hstep => rw [hstep]
  · next machine final more hnot hstep =>
    have := h.outcome
    rw [hstep] at this
    exact absurd this (hnot _)

namespace Path

variable {m last : Machine} {path : List Retirement}

/-- What every retired instruction keeps, a path keeps. -/
theorem invariant (P : Machine → Prop) (h : m.Path path last)
    (keeps : ∀ m x, m.Retires x → P m → P m.step.machine) (hm : P m) : P last := by
  induction h with
  | stay => exact hm
  | go retires _ ih => exact ih (keeps _ _ retires hm)

theorem config (h : m.Path path last) : last.config = m.config :=
  h.invariant (fun n => n.config = m.config) (fun n _ _ hn => (step_config n).trans hn) rfl

theorem status (h : m.Path path last) (hm : m.status = .running) : last.status = .running :=
  h.invariant (fun n => n.status = .running) (fun _ _ hx _ => hx.status.2) hm

theorem steps (h : m.Path path last) : last.steps = m.steps + path.length := by
  induction h with
  | stay => rfl
  | go retires _ ih =>
    rw [ih, retires.moves.2, List.length_cons]
    omega

theorem length_le (h : m.Path path last) : path.length ≤ m.config.stepBudget - m.steps := by
  induction h with
  | stay => exact Nat.zero_le _
  | go retires _ ih =>
    obtain ⟨hsteps, hbudget⟩ := step_retired retires.outcome
    rw [step_config, hsteps] at ih
    rw [List.length_cons]
    omega

theorem follows (h : m.Path path last) : Retirement.Follows m.pc path last.pc := by
  induction h with
  | stay => rfl
  | go retires _ ih =>
    rw [retires.moves.1] at ih
    exact ⟨retires.pc, ih⟩

/-- The path is made of the first steps of the machine. -/
theorem after_eq (h : m.Path path last) : after attempt path.length m = last := by
  induction h with
  | stay => rfl
  | go _ _ ih => exact ih

theorem retires_at (h : m.Path path last) :
    ∀ k (hk : k < path.length), (after attempt k m).Retires path[k] := by
  induction h with
  | stay =>
    intro k hk
    cases hk
  | go retires _ ih =>
    intro k hk
    cases k with
    | zero => exact retires
    | succ k => exact ih k (Nat.lt_of_succ_lt_succ hk)

theorem runFrom_eq (h : m.Path path last) (hstop : last.Stops) (retired : Nat)
    (events : Array TraceEvent) :
    m.runFrom retired events =
      ⟨last.step.machine, retired + path.length, last.step.outcome,
        events.toList ++ m.traced (path.flatMap Retirement.events) ++ last.step.events⟩ := by
  induction h generalizing retired events with
  | stay m =>
    rw [runFrom_of_stops hstop]
    simp [traced]
  | go retires rest ih =>
    rw [runFrom_of_retires retires, ih hstop, retires.events, traced_step, List.flatMap_cons,
      traced_append, List.length_cons]
    simp [Nat.add_assoc, Nat.add_comm 1]

end Path

/-- A run is a path of retired instructions and one more step, which retires none. -/
theorem run_eq {m last : Machine} {path : List Retirement} (h : m.Path path last)
    (hstop : last.Stops) :
    m.run = ⟨last.step.machine, path.length, last.step.outcome,
      m.traced (path.flatMap Retirement.events) ++ last.step.events⟩ := by
  rw [run, h.runFrom_eq hstop, Nat.zero_add]
  rfl

theorem after_attempt_succ (n : Nat) (m : Machine) :
    after attempt (n + 1) m = (after attempt n m).step.machine :=
  after_add attempt n 1 m

theorem exists_path_of_retires {m : Machine} {n : Nat}
    (h : ∀ k < n, ∃ x, (after attempt k m).Retires x) :
    ∃ path, path.length = n ∧ m.Path path (after attempt n m) := by
  induction n generalizing m with
  | zero => exact ⟨[], rfl, .stay m⟩
  | succ n ih =>
    obtain ⟨x, hx⟩ := h 0 (Nat.succ_pos n)
    have hrest : ∀ k < n, ∃ x, (after attempt k m.step.machine).Retires x :=
      fun k hk => h (k + 1) (Nat.succ_lt_succ hk)
    obtain ⟨path, hlength, hpath⟩ := ih hrest
    exact ⟨x :: path, congrArg (· + 1) hlength, .go hx hpath⟩

/-- A machine that retires so many instructions and then no more has run. -/
theorem run_of_retires {m : Machine} {n : Nat} (h : ∀ k < n, ∃ x, (after attempt k m).Retires x)
    (hstop : (after attempt n m).Stops) :
    m.run.retired = n ∧ m.run.final = (after attempt n m).step.outcome ∧
      m.run.machine = (after attempt n m).step.machine := by
  obtain ⟨path, hlength, hpath⟩ := exists_path_of_retires h
  rw [run_eq hpath hstop]
  exact ⟨hlength, rfl, rfl⟩

/-- A run keeps what each of its steps keeps. -/
theorem run_invariant {m : Machine} (P : Machine → Prop) (keeps : ∀ m, P m → P m.step.machine)
    (hm : P m) : P m.run.machine := by
  obtain ⟨path, last, hpath, hstop⟩ := m.exists_path
  rw [run_eq hpath hstop]
  exact keeps last (hpath.invariant P (fun m _ _ => keeps m) hm)

theorem run_config (m : Machine) : m.run.machine.config = m.config :=
  run_invariant (fun n => n.config = m.config) (fun n hn => n.step_config.trans hn) rfl

theorem run_catalog (m : Machine) : m.run.machine.catalog = m.catalog :=
  run_invariant (fun n => n.catalog = m.catalog) (fun n hn => n.step_catalog.trans hn) rfl

end Machine

end MagicAssembly
