import MagicAssembly.Proofs.Apart
import MagicAssembly.Proofs.Lockstep
import MagicAssembly.Proofs.Meaning

namespace MagicAssembly

/-- No branch of a program of that size leaves the address space. -/
def Config.HasRoom (config : Config) (size : Nat) : Prop :=
  0x20000 ≤ config.textBase.toNat ∧ config.textBase.toNat + 4 * size + 0x20000 ≤ 0x100000000

/-- The same statements and the same labels, all of them `d` further on. -/
structure Relocated (d : Int) (config config' : Config) (program program' : Program) : Prop where
  base : Word.Apart d config.textBase config'.textBase
  budget : config'.stepBudget = config.stepBudget
  globalPointer : config'.globalPointer = config.globalPointer
  stackPointer : config'.stackPointer = config.stackPointer
  room : config.HasRoom program.size
  room' : config'.HasRoom program'.size
  statements : program'.statements = program.statements
  labels : program.labels.Apart d program'.labels

namespace Word

theorem branchTarget_toNat {w pc : Word} (low : 0x20000 ≤ pc.toNat)
    (high : pc.toNat + 4 + 0x20000 ≤ 0x100000000) :
    ((w.branchTarget pc).toNat : Int) = pc.toNat + 4 + 4 * w.immediate := by
  have hlow : -(2 : Int) ^ 15 ≤ w.immediate := BitVec.le_toInt (w.setWidth 16)
  have hhigh : w.immediate < 2 ^ 15 := BitVec.toInt_lt (x := w.setWidth 16)
  simp only [branchTarget, wrap, BitVec.toNat_ofInt]
  omega

theorem next_toNat {pc : Word} (high : pc.toNat + 4 + 0x20000 ≤ 0x100000000) :
    (pc + 4).toNat = pc.toNat + 4 := by
  have hfour : (4 : Word).toNat = 4 := rfl
  rw [BitVec.toNat_add, hfour]
  omega

section

variable {d : Int} {w pc pc' : Word} (h : Apart d pc pc')
  (high : pc.toNat + 4 + 0x20000 ≤ 0x100000000) (high' : pc'.toNat + 4 + 0x20000 ≤ 0x100000000)

include h high high'

/-- Where no target wraps, both are the same way from the branch. -/
theorem Apart.branchTarget (low : 0x20000 ≤ pc.toNat) (low' : 0x20000 ≤ pc'.toNat) :
    Apart d (w.branchTarget pc) (w.branchTarget pc') := by
  rw [Apart] at h ⊢
  rw [branchTarget_toNat low high, branchTarget_toNat low' high']
  omega

theorem Apart.next : Apart d (pc + 4) (pc' + 4) := by
  rw [Apart] at h ⊢
  rw [next_toNat high, next_toNat high']
  omega

end

end Word

/-- What a word is does not depend on where it stands. -/
theorem Catalog.decode_elsewhere {c : Catalog} {w pc : Word} {d : Decoded}
    (h : c.decode w pc = some d) (pc' : Word) :
    ∃ ops, c.decode w pc' = some ⟨d.definition, ops⟩ := by
  obtain ⟨x, hx, rfl⟩ := Option.map_eq_some_iff.mp h
  exact ⟨_, Option.map_eq_some_iff.mpr ⟨x, hx, rfl⟩⟩

namespace Machine

/-- The two machines do the same `d` apart. -/
structure Apart (d : Int) (m m' : Machine) : Prop where
  registers : m'.storage.registers = m.storage.registers
  steps : m'.steps = m.steps
  runState : m'.runState = m.runState
  pc : Word.Apart d m.pc m'.pc
  catalog : m'.catalog = m.catalog
  standard : Catalog.standard = .ok m.catalog
  loadless : m.program.Loadless m.catalog
  relocated : Relocated d m.config m'.config m.program m'.program

theorem fetch_inside {m : Machine} {s : Statement} (room : m.config.HasRoom m.program.size)
    (fetch : m.fetch = .ok (some s)) :
    0x20000 ≤ m.pc.toNat ∧ m.pc.toNat + 4 + 0x20000 ≤ 0x100000000 := by
  obtain ⟨i, ha, hs⟩ := fetch_eq_some_iff.mp fetch
  obtain ⟨hi, _⟩ := Array.getElem?_eq_some_iff.mp hs
  rw [Config.address_eq_some_iff] at ha
  obtain ⟨hlow, hhigh⟩ := room
  have hsize : i < m.program.size := hi
  omega

namespace Apart

variable {d : Int} {m m' : Machine}

theorem fetch_some (h : m.Apart d m') {s : Statement} (fetch : m.fetch = .ok (some s)) :
    m'.fetch = .ok (some s) := by
  obtain ⟨i, ha, hs⟩ := fetch_eq_some_iff.mp fetch
  have hpc := h.pc
  have hbase := h.relocated.base
  rw [Word.Apart] at hpc hbase
  rw [Config.address_eq_some_iff] at ha
  refine fetch_eq_some_iff.mpr ⟨i, Config.address_eq_some_iff.mpr (by omega), ?_⟩
  rw [h.relocated.statements]
  exact hs

theorem fetch_none (h : m.Apart d m') (fetch : m.fetch = .ok none) : m'.fetch = .ok none := by
  obtain ⟨hle, hmod, hsize⟩ := fetch_eq_none_iff.mp fetch
  have hpc := h.pc
  have hbase := h.relocated.base
  rw [Word.Apart] at hpc hbase
  have hsize' : m'.program.size = m.program.size := congrArg Array.size h.relocated.statements
  exact fetch_eq_none_iff.mpr ⟨by omega, by omega, by omega⟩

theorem fetch_error (h : m.Apart d m') {e : AddressError} (fetch : m.fetch = .error e) :
    ∃ e', m'.fetch = .error e' := by
  obtain ⟨cause, hcause, _⟩ := fetch_eq_error_iff.mp fetch
  have hpc := h.pc
  have hbase := h.relocated.base
  rw [Word.Apart] at hpc hbase
  have hlt : m'.pc.toNat < m'.config.textBase.toNat ↔ m.pc.toNat < m.config.textBase.toNat := by
    omega
  have hsub : m'.pc.toNat - m'.config.textBase.toNat = m.pc.toNat - m.config.textBase.toNat := by
    omega
  refine ⟨_, fetch_eq_error_iff.mpr ⟨cause, ?_, rfl⟩⟩
  rw [← hcause]
  simp only [Config.fetchFault?, hlt, hsub]

theorem running (h : m.Apart d m') (status : m.status = .running) : m'.status = .running :=
  Status.map_eq_running_iff.mp (h.runState.trans (Status.map_eq_running_iff.mpr status))

theorem budget (h : m.Apart d m') (left : m.steps < m.config.stepBudget) :
    m'.steps < m'.config.stepBudget := by
  rwa [h.steps, h.relocated.budget]

theorem stop (h : m.Apart d m') {status status' : Status ExecutionError}
    (same : status'.map (·.fault.kind) = status.map (·.fault.kind)) :
    Apart d { m with status } { m' with status := status' } :=
  { h with runState := same }

theorem latch (h : m.Apart d m') (started started' : List TraceEvent) {e e' : ExecutionError}
    (kind : e'.fault.kind = e.fault.kind) :
    (m.latch started e).machine.Apart d (m'.latch started' e').machine ∧
      (m.latch started e).outcome.Apart d (m'.latch started' e').outcome := by
  refine ⟨h.stop (congrArg Status.faulted kind), ?_⟩
  simp only [Machine.latch, kind]
  exact .fault _

theorem retire (h : m.Apart d m') (room : m.pc.toNat + 4 + 0x20000 ≤ 0x100000000)
    (room' : m'.pc.toNat + 4 + 0x20000 ≤ 0x100000000) (started started' : List TraceEvent)
    (writes : List Write) {x y : Control} (control : x.Apart d y) :
    let r := { m with storage := m.storage.commit writes }.retire started x
    let r' := { m' with storage := m'.storage.commit writes }.retire started' y
    r.machine.Apart d r'.machine ∧ r.outcome.Apart d r'.outcome := by
  have hnext : Word.Apart d (x.next m.pc) (y.next m'.pc) := by
    cases control with
    | transfer target => exact target
    | sequential => exact h.pc.next room room'
  have hregisters := Storage.commit_registers h.registers writes
  exact ⟨{ h with registers := hregisters, steps := congrArg (· + 1) h.steps, pc := hnext },
    .retired control⟩

theorem effect (h : m.Apart d m') {s : Statement} {x : Decoded}
    (fetch : m.fetch = .ok (some s)) (decode : m.catalog.decode s.word m.pc = some x) :
    ∃ x', m'.catalog.decode s.word m'.pc = some x' ∧
      Instruction.EffectsApart d ((x.instruction s.tokens).effect m.program.labels m.storage)
        ((x'.instruction s.tokens).effect m'.program.labels m'.storage) := by
  obtain ⟨i, _, hs⟩ := fetch_eq_some_iff.mp fetch
  obtain ⟨hlow, hhigh⟩ := fetch_inside h.relocated.room fetch
  obtain ⟨hlow', hhigh'⟩ := fetch_inside h.relocated.room' (h.fetch_some fetch)
  obtain ⟨ops, decode'⟩ := Catalog.decode_elsewhere decode m'.pc
  have hvalues := (Catalog.standard_decode h.standard decode).2
  have hvalues' := (Catalog.standard_decode h.standard decode').2
  have hloadless := h.loadless s (Array.mem_of_getElem? hs) m.pc x decode
  have htarget : Word.Apart d (s.word.branchTarget m.pc) (s.word.branchTarget m'.pc) :=
    h.pc.branchTarget hhigh hhigh' hlow hlow'
  refine ⟨_, h.catalog ▸ decode', ?_⟩
  exact (Opcode.instruction_apart hvalues hvalues' hloadless htarget s.tokens).effect h.registers
    h.relocated.labels

/-- Machines that stand apart stay apart, and their steps end alike. -/
theorem step (h : m.Apart d m') :
    m.step.machine.Apart d m'.step.machine ∧ m.step.outcome.Apart d m'.step.outcome := by
  generalize hr : m.step = r
  cases stepCase hr with
  | latched status =>
    obtain ⟨e', status', kind⟩ :=
      Status.map_eq_faulted_iff.mp (h.runState.trans (congrArg _ status))
    rw [(StepCase.latched status').step_eq, kind]
    exact ⟨h, .fault _⟩
  | finished status =>
    have status' := Status.map_eq_completed_iff.mp (h.runState.trans (congrArg _ status))
    rw [(StepCase.finished status').step_eq]
    exact ⟨h, .completed⟩
  | spent status budget =>
    have budget' : m'.config.stepBudget ≤ m'.steps := by rwa [h.steps, h.relocated.budget]
    rw [(StepCase.spent (h.running status) budget').step_eq]
    exact ⟨h, .budgetExhausted⟩
  | lost status budget fetch =>
    obtain ⟨e', fetch'⟩ := h.fetch_error fetch
    rw [(StepCase.lost (h.running status) (h.budget budget) fetch').step_eq]
    exact h.latch _ _ rfl
  | past status budget fetch =>
    rw [(StepCase.past (h.running status) (h.budget budget) (h.fetch_none fetch)).step_eq]
    exact ⟨h.stop rfl, .completed⟩
  | @undecoded s status budget fetch decode =>
    have decode' : m'.catalog.decode s.word m'.pc = none := by
      rw [h.catalog, Catalog.decode_eq_none_iff]
      exact Catalog.decode_eq_none_iff.mp decode
    rw [(StepCase.undecoded (h.running status) (h.budget budget) (h.fetch_some fetch)
      decode').step_eq]
    exact h.latch _ _ rfl
  | @refused s x fault status budget fetch decode effect =>
    obtain ⟨x', decode', heffects⟩ := h.effect fetch decode
    rw [effect] at heffects
    generalize effect' : (x'.instruction s.tokens).effect m'.program.labels m'.storage = y
      at heffects
    cases heffects
    rw [(StepCase.refused (h.running status) (h.budget budget) (h.fetch_some fetch) decode'
      effect').step_eq]
    exact h.latch _ _ rfl
  | @retired s x e status budget fetch decode effect =>
    obtain ⟨x', decode', heffects⟩ := h.effect fetch decode
    rw [effect] at heffects
    generalize effect' : (x'.instruction s.tokens).effect m'.program.labels m'.storage = y
      at heffects
    cases heffects with
    | ok writes control =>
      rw [(StepCase.retired (h.running status) (h.budget budget) (h.fetch_some fetch) decode'
        effect').step_eq]
      exact h.retire (fetch_inside h.relocated.room fetch).2
        (fetch_inside h.relocated.room' (h.fetch_some fetch)).2 _ _ writes control

end Apart

theorem boot_apart {d : Int} {config config' : Config} {catalog : Catalog}
    {program program' : Program} (standard : Catalog.standard = .ok catalog)
    (loadless : program.Loadless catalog)
    (relocated : Relocated d config config' program program') :
    (boot config catalog program).Apart d (boot config' catalog program') where
  registers := by
    simp only [boot, initialStorage, relocated.globalPointer, relocated.stackPointer]
  steps := rfl
  runState := rfl
  pc := relocated.base
  catalog := rfl
  standard
  loadless
  relocated

/-- Wherever a program stands that loads nothing, it does the same. -/
theorem relocate {d : Int} {config config' : Config} {catalog : Catalog}
    {program program' : Program} (standard : Catalog.standard = .ok catalog)
    (loadless : program.Loadless catalog) (relocated : Relocated d config config' program program')
    (n : Nat) :
    let m := after attempt n ((create config catalog).load program)
    let m' := after attempt n ((create config' catalog).load program')
    m'.storage.registers = m.storage.registers ∧ m'.steps = m.steps ∧ m'.runState = m.runState ∧
      Word.Apart d m.pc m'.pc ∧ m.step.outcome.Apart d m'.step.outcome := by
  intro m m'
  have h : m.Apart d m' :=
    after_related (fun _ _ h => h.step.1) n (boot_apart standard loadless relocated)
  exact ⟨h.registers, h.steps, h.runState, h.pc, h.step.2⟩

/-- Counts in `$t0` for ever. Its jump goes to the branch that closes the loop. -/
def countLoop : Program :=
  ((Program.empty.push 0x00080015 "chrg $t0").push 0x08000000 "tp again").push
    0x1000FFFD "ward $zero,$zero,top"

theorem countLoop_loadless {c : Catalog} (hc : Catalog.standard = .ok c) : countLoop.Loadless c := by
  have hwords : ∀ s ∈ countLoop.statements, ¬Opcode.conjure.template.Matches s.word := by decide
  intro s hs pc d hd hop
  have hmatches := (Catalog.standard_decode hc hd).1
  rw [hop] at hmatches
  exact hwords s hs hmatches

theorem relocate_countLoop :
    ∃ c program program', Catalog.standard = .ok c ∧
      countLoop.define .file "again" ⟨0x400008, 3⟩ = .ok program ∧
      countLoop.define .file "again" ⟨0x500008, 3⟩ = .ok program' ∧ program.Loadless c ∧
      Relocated 0x100000 {} { textBase := 0x500000 } program program' ∧
      let m := after attempt 5 ((create {} c).load program)
      let m' := after attempt 5 ((create { textBase := 0x500000 } c).load program')
      m'.storage.registers = m.storage.registers ∧ m'.steps = m.steps ∧ m'.runState = m.runState ∧
        Word.Apart 0x100000 m.pc m'.pc ∧ m.step.outcome.Apart 0x100000 m'.step.outcome := by
  obtain ⟨c, hc⟩ := Catalog.standard_ok
  have hnew : Labels.empty.get? .file "again" = none := Std.ExtHashMap.getElem?_empty
  have hsame : Labels.empty.Apart 0x100000 .empty := by
    intro scope name
    rw [Labels.get?, Labels.empty, Std.ExtHashMap.getElem?_empty]
    exact .none
  have haddress : Word.Apart 0x100000 0x400008 0x500008 := rfl
  obtain ⟨labels, labels', hlabels, hlabels', hapart⟩ :=
    hsame.define (x := ⟨0x400008, 3⟩) (y := ⟨0x500008, 3⟩) haddress hnew
  have hloadless : { countLoop with labels }.Loadless c := countLoop_loadless hc
  have hroom : ({} : Config).HasRoom countLoop.size := ⟨by decide, by decide⟩
  have hroom' : ({ textBase := 0x500000 } : Config).HasRoom countLoop.size :=
    ⟨by decide, by decide⟩
  have hrelocated : Relocated 0x100000 {} { textBase := 0x500000 } { countLoop with labels }
      { countLoop with labels := labels' } :=
    ⟨rfl, rfl, rfl, rfl, hroom, hroom', rfl, hapart⟩
  refine ⟨c, _, _, hc, ?_, ?_, hloadless, hrelocated, relocate hc hloadless hrelocated 5⟩
  · exact congrArg (Except.map _) hlabels
  · exact congrArg (Except.map _) hlabels'

end Machine

end MagicAssembly
