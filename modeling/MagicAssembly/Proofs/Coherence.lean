import MagicAssembly.Proofs.CatalogDisjoint
import MagicAssembly.Proofs.Fetch
import MagicAssembly.Proofs.SplitState

namespace MagicAssembly

theorem BinaryOp.map_apply_legal (op : BinaryOp) {f : Word → α} {lhs rhs : Word} {fault : Fault}
    (h : (op.apply lhs rhs).map f = .error fault) (w : Word) : fault ≠ .illegalEncoding w := by
  cases op <;> simp only [apply, Except.map] at h <;> grind

/-- A rule never blames the encoding: only a word that is no instruction has an illegal one. -/
theorem Instruction.effect_legal {labels : Labels} {s : Storage} {i : Instruction} {fault : Fault}
    (h : i.effect labels s = .error fault) (w : Word) : fault ≠ .illegalEncoding w := by
  cases i with
  | binary op | binaryImmediate op => exact op.map_apply_legal h w
  | unary | swap | clear | increment | branch => cases h
  | load rt base offset | store rt base offset =>
    simp only [effect] at h
    split at h <;> cases h
    simp
  | jump label =>
    cases label with
    | none =>
      cases h
      simp
    | some label =>
      simp only [effect] at h
      split at h <;> cases h
      simp

namespace Machine

/-- The errors that can arise where the machine stands. -/
inductive Explains (m : Machine) : ExecutionError → Prop
  | lost {e : AddressError} (fetch : m.fetch = .error e) :
      Explains m ⟨"(fetch)", m.pc, .address e⟩
  | undecoded {s : Statement} (fetch : m.fetch = .ok (some s))
      (decode : m.catalog.decode s.word m.pc = none) :
      Explains m ⟨dataText s.word, m.pc, .illegalEncoding s.word⟩
  | refused {s : Statement} {d : Decoded} {fault : Fault} (fetch : m.fetch = .ok (some s))
      (decode : m.catalog.decode s.word m.pc = some d)
      (legal : ∀ w, fault ≠ .illegalEncoding w) :
      Explains m ⟨d.describe s.tokens, m.pc, fault⟩

/-- How an error shows a statement: a jump as it was written, anything else as its word reads. -/
def shown (m : Machine) (s : Statement) : String :=
  if (m.catalog.decode s.word m.pc).map (·.definition.opcode) = some .teleport ∧ s.tokens ≠ [] then
    " ".intercalate s.tokens
  else m.catalog.disassemble s.word m.pc

/-- What an error says of the place where the machine stands. -/
structure Tells (m : Machine) (e : ExecutionError) : Prop where
  address : e.address = m.pc
  nowhere : (∀ i < m.program.size, m.statementAddress? i ≠ some m.pc) →
    e.instruction = "(fetch)" ∧ ∃ cause, e.fault = .address ⟨m.pc, cause⟩
  somewhere : ∀ i s, m.statementAddress? i = some m.pc → m.program.statements[i]? = some s →
    e.instruction = m.shown s ∧ ∀ w, e.fault = .illegalEncoding w ↔
      w = s.word ∧ ∀ d ∈ m.catalog.definitions, ¬d.template.Matches s.word

/-- The status agrees with the place where the machine stands, and the count with the budget. -/
structure Coherent (m : Machine) : Prop where
  error : ∀ e, m.status = .faulted e → m.Explains e
  past : m.status = .completed → m.fetch = .ok none
  budget : m.steps ≤ m.config.stepBudget

/-- Neither the storage nor the status has a part in where the machine stands. -/
theorem Explains.anywhere {m : Machine} {e : ExecutionError} (h : m.Explains e) (storage : Storage)
    (status : Status ExecutionError) : Explains { m with storage, status } e := by
  cases h with
  | lost fetch => exact .lost fetch
  | undecoded fetch decode => exact .undecoded fetch decode
  | refused fetch decode legal => exact .refused fetch decode legal

theorem Tells.of_fetch {m : Machine} {s : Statement} {e : ExecutionError}
    (fetch : m.fetch = .ok (some s)) (address : e.address = m.pc)
    (instruction : e.instruction = m.shown s)
    (illegal : ∀ w, e.fault = .illegalEncoding w ↔
      w = s.word ∧ ∀ d ∈ m.catalog.definitions, ¬d.template.Matches s.word) : m.Tells e := by
  obtain ⟨i, hi, hs⟩ := fetch_eq_some_iff.mp fetch
  refine ⟨address, ?_, ?_⟩
  · intro hnowhere
    obtain ⟨hsize, _⟩ := Array.getElem?_eq_some_iff.mp hs
    exact absurd hi (hnowhere i hsize)
  · intro j s' hj hs'
    obtain rfl : i = j := Config.address_inj hi hj
    obtain rfl : s = s' := Option.some.inj (hs.symm.trans hs')
    exact ⟨instruction, illegal⟩

/-- Each of the three ways to write an error tells the same of the place. -/
theorem Explains.tells {m : Machine} {e : ExecutionError} (h : m.Explains e) : m.Tells e := by
  cases h with
  | @lost e fetch =>
    refine ⟨rfl, ?_, ?_⟩
    · intro _
      obtain ⟨cause, _, rfl⟩ := fetch_eq_error_iff.mp fetch
      exact ⟨rfl, cause, rfl⟩
    · intro i s hi hs
      cases fetch.symm.trans (fetch_eq_some_iff.mpr ⟨i, hi, hs⟩)
  | undecoded fetch decode =>
    refine .of_fetch fetch rfl ?_ ?_
    · simp [shown, Catalog.disassemble, decode]
    · intro w
      rw [Fault.illegalEncoding.injEq, eq_comm]
      exact (and_iff_left (Catalog.decode_eq_none_iff.mp decode)).symm
  | refused fetch decode legal =>
    refine .of_fetch fetch rfl ?_ ?_
    · simp only [shown, Catalog.disassemble, decode, Option.map_some, Option.some.injEq,
        Decoded.describe]
    · intro w
      refine iff_of_false (legal w) ?_
      rintro ⟨_, hnone⟩
      cases decode.symm.trans (Catalog.decode_eq_none_iff.mpr hnone)

namespace Coherent

variable {m : Machine}

theorem of_running (status : m.status = .running) (budget : m.steps ≤ m.config.stepBudget) :
    m.Coherent := by
  refine ⟨?_, ?_, budget⟩
  · intro e he
    cases status.symm.trans he
  · intro hs
    cases status.symm.trans hs

theorem latch {e : ExecutionError} (h : m.Explains e) (budget : m.steps ≤ m.config.stepBudget)
    (started : List TraceEvent) : (m.latch started e).machine.Coherent := by
  refine ⟨?_, ?_, budget⟩
  · intro e' he
    cases he
    exact h.anywhere m.storage _
  · intro hs
    cases hs

theorem step (h : m.Coherent) : m.step.machine.Coherent := by
  generalize hr : m.step = r
  cases stepCase hr with
  | latched | finished | spent => exact h
  | lost status budget fetch => exact latch (.lost fetch) h.budget _
  | past status budget fetch =>
    refine ⟨?_, fun _ => fetch, h.budget⟩
    intro e he
    cases he
  | undecoded status budget fetch decode => exact latch (.undecoded fetch decode) h.budget _
  | refused status budget fetch decode effect =>
    exact latch (.refused fetch decode (Instruction.effect_legal effect)) h.budget _
  | retired status budget => exact of_running status budget

theorem run (h : m.Coherent) : m.run.machine.Coherent :=
  run_invariant Coherent (fun _ hn => hn.step) h

theorem setStorage (h : m.Coherent) (storage : Storage) : Coherent { m with storage } :=
  ⟨fun e he => (h.error e he).anywhere storage m.status, h.past, h.budget⟩

theorem call (h : m.Coherent) (c : Call) : (m.call c).Coherent := by
  cases c with
  | load | reset => exact of_running rfl (Nat.zero_le _)
  | step => exact h.step
  | run => exact h.run
  | setRegister | memory => exact h.setStorage _

end Coherent

theorem step_steps (m : Machine) : m.step.machine.steps = m.steps + m.retiredBy .step := by
  unfold retiredBy
  generalize hr : m.step = r
  cases stepCase hr <;> rfl

theorem run_steps (m : Machine) : m.run.machine.steps = m.steps + m.run.retired := by
  obtain ⟨path, last, hpath, hstop⟩ := m.exists_path
  obtain ⟨status, hlast⟩ := hstop.keeps
  rw [run_eq hpath hstop, hlast]
  exact hpath.steps

theorem call_config (m : Machine) (c : Call) : (m.call c).config = m.config := by
  cases c with
  | step => exact m.step_config
  | run => exact m.run_config
  | load | reset | setRegister | memory => rfl

theorem call_catalog (m : Machine) (c : Call) : (m.call c).catalog = m.catalog := by
  cases c with
  | step => exact m.step_catalog
  | run => exact m.run_catalog
  | load | reset | setRegister | memory => rfl

theorem calls_config (m : Machine) (cs : List Call) : (m.calls cs).config = m.config :=
  calls_keep (P := fun n => n.config = m.config)
    (fun n c _ hn => (n.call_config c).trans hn) rfl

theorem calls_catalog (m : Machine) (cs : List Call) : (m.calls cs).catalog = m.catalog :=
  calls_keep (P := fun n => n.catalog = m.catalog)
    (fun n c _ hn => (n.call_catalog c).trans hn) rfl

end Machine

namespace Session

theorem call_steps {s : Session} (h : s.machine.steps = s.retired) (c : Call) :
    (s.call c).machine.steps = (s.call c).retired := by
  cases c with
  | load | reset => rfl
  | step => exact s.machine.step_steps.trans (congrArg (· + _) h)
  | run => exact s.machine.run_steps.trans (congrArg (· + _) h)
  | setRegister | memory => exact h

/-- What every call of a host keeps, holds for ever. -/
theorem after_induction {P : Session → Prop} {config : Config} {catalog : Catalog}
    (starts : P (start config catalog)) (keeps : ∀ s c, P s → P (s.call c)) (calls : List Call) :
    P (after config catalog calls) := by
  unfold after
  generalize start config catalog = s at starts
  induction calls generalizing s with
  | nil => exact starts
  | cons c calls ih => exact ih _ (keeps s c starts)

section

variable (config : Config) (catalog : Catalog) (calls : List Call)

theorem after_machine :
    (after config catalog calls).machine = (Machine.create config catalog).calls calls := by
  unfold after start
  generalize Machine.create config catalog = m
  generalize 0 = retired
  induction calls generalizing m retired with
  | nil => rfl
  | cons c calls ih => exact ih _ _

theorem after_config : (after config catalog calls).machine.config = config :=
  after_induction (P := fun s => s.machine.config = config) rfl
    (fun s c h => (s.machine.call_config c).trans h) calls

theorem after_catalog : (after config catalog calls).machine.catalog = catalog :=
  after_induction (P := fun s => s.machine.catalog = catalog) rfl
    (fun s c h => (s.machine.call_catalog c).trans h) calls

theorem after_steps :
    (after config catalog calls).machine.steps = (after config catalog calls).retired :=
  after_induction (P := fun s => s.machine.steps = s.retired) rfl (fun _ c h => call_steps h c) calls

theorem after_coherent : (after config catalog calls).machine.Coherent :=
  after_induction (P := fun s => s.machine.Coherent) (.of_running rfl (Nat.zero_le _))
    (fun _ c h => h.call c) calls

end

/-- Whatever a host asks for, the error, the status, the place and the count of a machine agree. It
is the same machine if the run state and the error are two fields that are set one by one. -/
theorem state_agrees (config : Config) (catalog : Catalog) (calls : List Call) :
    let s := after config catalog calls
    let m := s.machine
    (m.config = config ∧ m.catalog = catalog) ∧
      (SplitMachine.create config catalog).calls calls = m.split ∧
      ((∃ e, m.lastError? = some e) ↔ ∃ kind, m.runState = .faulted kind) ∧
      (∀ e, m.lastError? = some e → m.runState = .faulted e.fault.kind ∧ m.Tells e) ∧
      (m.runState = .completed → config.textBase.toNat ≤ m.pc.toNat ∧
        (m.pc.toNat - config.textBase.toNat) % 4 = 0 ∧
          m.program.size ≤ (m.pc.toNat - config.textBase.toNat) / 4) ∧
      m.steps ≤ config.stepBudget ∧ m.steps = s.retired := by
  have hconfig := after_config config catalog calls
  have hsteps := after_steps config catalog calls
  obtain ⟨herror, hpast, hbudget⟩ := after_coherent config catalog calls
  refine ⟨⟨hconfig, after_catalog config catalog calls⟩, ?_, ?_, ?_, ?_, ?_, hsteps⟩
  · rw [Machine.split_calls, after_machine]
  · simp only [Machine.lastError?, Machine.runState, Status.fault_eq_some_iff,
      Status.map_eq_faulted_iff]
    constructor
    · rintro ⟨e, he⟩
      exact ⟨e.fault.kind, e, he, rfl⟩
    · rintro ⟨_, e, he, _⟩
      exact ⟨e, he⟩
  · intro e he
    have hstatus := Status.fault_eq_some_iff.mp he
    exact ⟨Status.map_eq_faulted_iff.mpr ⟨e, hstatus, rfl⟩, (herror e hstatus).tells⟩
  · intro hcompleted
    have := Machine.fetch_eq_none_iff.mp (hpast (Status.map_eq_completed_iff.mp hcompleted))
    rwa [hconfig] at this
  · rwa [hconfig] at hbudget

end Session

end MagicAssembly
