import MagicAssembly.Proofs.CatalogDisjoint
import MagicAssembly.Proofs.Fetch
import MagicAssembly.Proofs.MemoryAccess

namespace MagicAssembly

namespace Decoded

variable {d d' : Decoded} {tokens : List String}

/-- Nothing but a jump sees how it was written. -/
theorem instruction_unwritten (h : d.definition.opcode ≠ .teleport) (tokens' : List String) :
    d.instruction tokens' = d.instruction tokens := by
  unfold instruction Instruction.ofOperands
  cases hop : d.definition.opcode with
  | teleport => exact absurd hop h
  | _ => rfl

theorem describe_unwritten (h : d.definition.opcode ≠ .teleport) (tokens : List String) :
    d.describe tokens = d.render :=
  if_neg fun hjump => h hjump.1

/-- A jump does not see the address in its word. -/
theorem instruction_jump (h : d.definition.opcode = .teleport) (tokens : List String) :
    d.instruction tokens = .jump (labelToken? tokens) := by
  simp only [instruction, Instruction.ofOperands, h, Opcode.instruction]

theorem describe_jump (h : d.definition.opcode = .teleport) (written : tokens ≠ []) :
    d.describe tokens = " ".intercalate tokens :=
  if_pos ⟨h, written⟩

end Decoded

/-- Two statements with one word, written in any way, or two jumps written in the same way, with
any addresses in their words. -/
structure Statement.Alike (c : Catalog) (s s' : Statement) : Prop where
  word : s'.word = s.word ∨
    c.opcode? s.word = some .teleport ∧ c.opcode? s'.word = some .teleport
  jump : c.opcode? s.word = some .teleport → s'.tokens = s.tokens ∧ s.tokens ≠ []

namespace Statement.Alike

variable {c : Catalog} {s s' : Statement}

theorem symm (h : s.Alike c s') : s'.Alike c s where
  word := h.word.imp Eq.symm And.symm
  jump := by
    intro hjump
    have hjump' : c.opcode? s.word = some .teleport := by
      rcases h.word with hword | ⟨hjump', _⟩
      · rwa [← hword]
      · exact hjump'
    obtain ⟨htokens, hwritten⟩ := h.jump hjump'
    exact ⟨htokens.symm, htokens ▸ hwritten⟩

theorem word_eq (h : s.Alike c s') (hjump : c.opcode? s.word ≠ some .teleport) :
    s'.word = s.word := by
  rcases h.word with hword | ⟨hjump', _⟩
  · exact hword
  · exact absurd hjump' hjump

theorem decode_none (h : s.Alike c s') {pc : Word} (decode : c.decode s.word pc = none) :
    s'.word = s.word := by
  apply h.word_eq
  rw [← c.decode_opcode s.word pc, decode]
  simp

/-- Alike statements stand for one instruction, which errors show in one way. -/
theorem decode_some (h : s.Alike c s') {pc : Word} {d : Decoded}
    (decode : c.decode s.word pc = some d) :
    ∃ d', c.decode s'.word pc = some d' ∧ d'.instruction s'.tokens = d.instruction s.tokens ∧
      d'.describe s'.tokens = d.describe s.tokens ∧
        (d.definition.opcode ≠ .teleport → d' = d) := by
  have hop := Catalog.opcode_of_decode decode
  by_cases hjump : d.definition.opcode = .teleport
  · rw [hjump] at hop
    obtain ⟨htokens, hwritten⟩ := h.jump hop
    have hop' : c.opcode? s'.word = some .teleport := by
      rcases h.word with hword | ⟨_, hop'⟩
      · rwa [hword]
      · exact hop'
    rw [← c.decode_opcode s'.word pc] at hop'
    obtain ⟨d', decode', hjump'⟩ := Option.map_eq_some_iff.mp hop'
    refine ⟨d', decode', ?_, ?_, fun hne => absurd hjump hne⟩
    · rw [htokens, Decoded.instruction_jump hjump, Decoded.instruction_jump hjump']
    · rw [htokens, Decoded.describe_jump hjump hwritten, Decoded.describe_jump hjump' hwritten]
  · have hword : s'.word = s.word := by
      apply h.word_eq
      rw [hop]
      exact fun heq => hjump (Option.some.inj heq)
    refine ⟨d, hword ▸ decode, Decoded.instruction_unwritten hjump _, ?_, fun _ => rfl⟩
    rw [Decoded.describe_unwritten hjump, Decoded.describe_unwritten hjump]

end Statement.Alike

/-- Programs of one size with the same labels whose statements are alike, place by place. -/
structure Program.Alike (c : Catalog) (p p' : Program) : Prop where
  size : p'.size = p.size
  labels : p'.labels = p.labels
  statements : ∀ (i : Nat) (s s' : Statement), p.statements[i]? = some s →
    p'.statements[i]? = some s' → s.Alike c s'

theorem Program.Alike.symm {c : Catalog} {p p' : Program} (h : p.Alike c p') : p'.Alike c p :=
  ⟨h.size.symm, h.labels.symm, fun i s s' hs hs' => (h.statements i s' s hs' hs).symm⟩

theorem Program.loadless_iff {p : Program} {c : Catalog} :
    p.Loadless c ↔ ∀ s ∈ p.statements, c.opcode? s.word ≠ some .conjure := by
  constructor
  · intro h s hs hop
    rw [← c.decode_opcode s.word 0] at hop
    obtain ⟨d, decode, hload⟩ := Option.map_eq_some_iff.mp hop
    exact h s hs 0 d decode hload
  · intro h s hs pc d decode hload
    exact h s hs (hload ▸ Catalog.opcode_of_decode decode)

namespace Machine

/-- Two machines with programs that load nothing. Their memories may hold different words, and
their programs may differ in what they let nobody see. -/
structure Alike (m m' : Machine) : Prop where
  config : m'.config = m.config
  catalog : m'.catalog = m.catalog
  program : m.program.Alike m.catalog m'.program
  loadless : m.program.Loadless m.catalog
  loadless' : m'.program.Loadless m'.catalog
  registers : m'.storage.registers = m.storage.registers
  pc : m'.pc = m.pc
  steps : m'.steps = m.steps
  runState : m'.runState = m.runState
  lastError : m'.lastError? = m.lastError?

/-- What a host is told of the status and of the error is all that there is. -/
theorem status_eq {m m' : Machine} (runState : m'.runState = m.runState)
    (lastError : m'.lastError? = m.lastError?) : m'.status = m.status := by
  unfold Machine.runState at runState
  unfold lastError? at lastError
  cases hstatus : m.status with
  | running =>
    rw [hstatus] at runState
    exact Status.map_eq_running_iff.mp runState
  | completed =>
    rw [hstatus] at runState
    exact Status.map_eq_completed_iff.mp runState
  | faulted e =>
    rw [hstatus] at lastError
    exact Status.fault_eq_some_iff.mp lastError

namespace Alike

variable {m m' : Machine}

theorem symm (h : m.Alike m') : m'.Alike m where
  config := h.config.symm
  catalog := h.catalog.symm
  program := h.catalog ▸ h.program.symm
  loadless := h.loadless'
  loadless' := h.loadless
  registers := h.registers.symm
  pc := h.pc.symm
  steps := h.steps.symm
  runState := h.runState.symm
  lastError := h.lastError.symm

theorem fetch_some (h : m.Alike m') {s : Statement} (fetch : m.fetch = .ok (some s)) :
    ∃ s', m'.fetch = .ok (some s') ∧ s.Alike m.catalog s' := by
  obtain ⟨i, ha, hs⟩ := fetch_eq_some_iff.mp fetch
  obtain ⟨hi, _⟩ := Array.getElem?_eq_some_iff.mp hs
  have hi' : i < m'.program.statements.size := Nat.lt_of_lt_of_eq hi h.program.size.symm
  have hs' := Array.getElem?_eq_getElem hi'
  refine ⟨_, fetch_eq_some_iff.mpr ⟨i, ?_, hs'⟩, h.program.statements i s _ hs hs'⟩
  rw [h.config, h.pc, ha]

theorem fetch_none (h : m.Alike m') (fetch : m.fetch = .ok none) : m'.fetch = .ok none := by
  rw [fetch_eq_none_iff, h.config, h.pc, h.program.size]
  exact fetch_eq_none_iff.mp fetch

theorem fetch_error (h : m.Alike m') {e : AddressError} (fetch : m.fetch = .error e) :
    m'.fetch = .error e := by
  rw [fetch_eq_error_iff, h.config, h.pc]
  exact fetch_eq_error_iff.mp fetch

theorem status (h : m.Alike m') : m'.status = m.status :=
  status_eq h.runState h.lastError

theorem budget (h : m.Alike m') (left : m.steps < m.config.stepBudget) :
    m'.steps < m'.config.stepBudget := by
  rwa [h.steps, h.config]

/-- One instruction has one effect, as it reads nothing but registers. -/
theorem effect (h : m.Alike m') {s : Statement} {d : Decoded} (fetch : m.fetch = .ok (some s))
    (decode : m.catalog.decode s.word m.pc = some d) :
    ∃ s' d', m'.fetch = .ok (some s') ∧ m'.catalog.decode s'.word m'.pc = some d' ∧
      (d'.instruction s'.tokens).effect m'.program.labels m'.storage =
        (d.instruction s.tokens).effect m.program.labels m.storage ∧
      d'.describe s'.tokens = d.describe s.tokens ∧
        (d.definition.opcode ≠ .teleport → d' = d) := by
  obtain ⟨s', fetch', hs⟩ := h.fetch_some fetch
  obtain ⟨d', decode', hinstruction, hdescribe, hplain⟩ := hs.decode_some decode
  obtain ⟨i, _, hi⟩ := fetch_eq_some_iff.mp fetch
  have hload := h.loadless s (Array.mem_of_getElem? hi) m.pc d decode
  refine ⟨s', d', fetch', ?_, ?_, hdescribe, hplain⟩
  · rwa [h.catalog, h.pc]
  · rw [hinstruction, h.program.labels]
    exact Instruction.effect_of_registers (Instruction.ofOperands_ne_load hload _ _) h.registers _

theorem latch (h : m.Alike m') (started started' : List TraceEvent) (e : ExecutionError) :
    (m.latch started e).machine.Alike (m'.latch started' e).machine ∧
      (m'.latch started' e).outcome = (m.latch started e).outcome :=
  ⟨{ h with runState := rfl, lastError := rfl }, rfl⟩

theorem retire (h : m.Alike m') (started started' : List TraceEvent) (e : Effect) :
    let r := { m with storage := m.storage.commit e.writes }.retire started e.control
    let r' := { m' with storage := m'.storage.commit e.writes }.retire started' e.control
    r.machine.Alike r'.machine ∧ r'.outcome = r.outcome :=
  ⟨{ h with
      registers := Storage.commit_registers h.registers e.writes
      pc := congrArg e.control.next h.pc
      steps := congrArg (· + 1) h.steps }, rfl⟩

/-- Alike machines stay alike, and their steps end in the same way. -/
theorem step (h : m.Alike m') :
    m.step.machine.Alike m'.step.machine ∧ m'.step.outcome = m.step.outcome := by
  generalize hr : m.step = r
  cases stepCase hr with
  | latched status =>
    rw [(StepCase.latched (h.status.trans status)).step_eq]
    exact ⟨h, rfl⟩
  | finished status =>
    rw [(StepCase.finished (h.status.trans status)).step_eq]
    exact ⟨h, rfl⟩
  | spent status budget =>
    have budget' : m'.config.stepBudget ≤ m'.steps := by rwa [h.steps, h.config]
    rw [(StepCase.spent (h.status.trans status) budget').step_eq]
    exact ⟨h, rfl⟩
  | lost status budget fetch =>
    have fetch' := h.fetch_error fetch
    rw [(StepCase.lost (h.status.trans status) (h.budget budget) fetch').step_eq, h.pc]
    exact h.latch _ _ _
  | past status budget fetch =>
    have fetch' := h.fetch_none fetch
    rw [(StepCase.past (h.status.trans status) (h.budget budget) fetch').step_eq]
    exact ⟨{ h with runState := rfl, lastError := rfl }, rfl⟩
  | undecoded status budget fetch decode =>
    obtain ⟨s', fetch', hs⟩ := h.fetch_some fetch
    have hword := hs.decode_none decode
    have decode' : m'.catalog.decode s'.word m'.pc = none := by rwa [h.catalog, h.pc, hword]
    rw [(StepCase.undecoded (h.status.trans status) (h.budget budget) fetch' decode').step_eq,
      hword, h.pc]
    exact h.latch _ _ _
  | refused status budget fetch decode effect =>
    obtain ⟨s', d', fetch', decode', heffect, hdescribe, _⟩ := h.effect fetch decode
    rw [(StepCase.refused (h.status.trans status) (h.budget budget) fetch' decode'
      (heffect.trans effect)).step_eq, hdescribe, h.pc]
    exact h.latch _ _ _
  | retired status budget fetch decode effect =>
    obtain ⟨s', d', fetch', decode', heffect, _, _⟩ := h.effect fetch decode
    rw [(StepCase.retired (h.status.trans status) (h.budget budget) fetch' decode'
      (heffect.trans effect)).step_eq]
    exact h.retire _ _ _

theorem accesses (h : m.Alike m') {address : Word} {r : Register}
    (access : m.Accesses .implant address r) : m'.Accesses .implant address r := by
  obtain ⟨⟨control, hretired⟩, s, d, fetch, decode, hop, hr, haddress⟩ := access
  obtain ⟨s', d', fetch', decode', _, _, hplain⟩ := h.effect fetch decode
  obtain rfl := hplain (by simp [hop])
  refine ⟨⟨control, h.step.2.trans hretired⟩, s', d', fetch', decode', hop, hr, ?_⟩
  rwa [Storage.get_of_registers h.registers]

/-- Stores of alike machines write one value to one address. -/
theorem stores (h : m.Alike m') {address : Word} {r : Register}
    (access : m.Accesses .implant address r) :
    ∃ value, m.step.machine.storage.memory = m.storage.memory.put address value ∧
      m'.step.machine.storage.memory = m'.storage.memory.put address value := by
  refine ⟨m.storage.get r, ?_, ?_⟩
  · rw [access.stores.2]
  · rw [(h.accesses access).stores.2, Storage.get_of_registers h.registers]

end Alike

/-- Loaded with alike programs, machines are alike, whatever the host puts into their memories. -/
theorem boot_alike {catalog : Catalog} {program program' : Program}
    (alike : program.Alike catalog program') (loadless : program.Loadless catalog)
    (loadless' : program'.Loadless catalog) (config : Config) (memory : Memory) :
    (boot config catalog program).Alike ((boot config catalog program').setMemory memory) where
  config := rfl
  catalog := rfl
  program := alike
  loadless
  loadless'
  registers := rfl
  pc := rfl
  steps := rfl
  runState := rfl
  lastError := rfl

/-- As long as nothing is loaded, neither the words in memory, nor how a statement was written, nor
the address in the word of a jump has a part in what a machine does. -/
theorem loadless_unsteered {m m' : Machine} (h : m.Alike m') (n : Nat) :
    let x := after attempt n m
    let y := after attempt n m'
    y.pc = x.pc ∧ y.steps = x.steps ∧ y.storage.registers = x.storage.registers ∧
      y.runState = x.runState ∧ y.lastError? = x.lastError? ∧ y.step.outcome = x.step.outcome ∧
      ∀ address r, (y.Accesses .implant address r ↔ x.Accesses .implant address r) ∧
        (x.Accesses .implant address r → ∃ value,
          x.step.machine.storage.memory = x.storage.memory.put address value ∧
            y.step.machine.storage.memory = y.storage.memory.put address value) := by
  intro x y
  have hn : x.Alike y := after_related (fun _ _ h => h.step.1) n h
  exact ⟨hn.pc, hn.steps, hn.registers, hn.runState, hn.lastError, hn.step.2,
    fun _ _ => ⟨⟨hn.symm.accesses, hn.accesses⟩, hn.stores⟩⟩

def storeCatalog : Catalog :=
  (Catalog.empty.offer
    { opcode := .implant, usage := "implant $t0,4($t1)", kind := .immediate
      description := "", template := "100001 rrrrr sssss immediate" }).offer
    { opcode := .teleport, usage := "tp label", kind := .jump
      description := "", template := "000010 address26" }

/-- Stores the stack pointer where the global pointer points, and jumps to no label. -/
def strayJump (store : String) (jump : Word) : Program :=
  (Program.empty.push 0x87BC0000 store).push jump "tp nowhere"

theorem strayJump_alike {store store' : String} {jump jump' : Word}
    (h : storeCatalog.opcode? jump = some .teleport)
    (h' : storeCatalog.opcode? jump' = some .teleport) :
    (strayJump store jump).Alike storeCatalog (strayJump store' jump') := by
  have hstore : storeCatalog.opcode? 0x87BC0000 ≠ some .teleport := by decide +kernel
  have hwritten : tokenize "tp nowhere" ≠ [] := by decide
  refine ⟨rfl, rfl, ?_⟩
  intro i s s' hs hs'
  match i with
  | 0 =>
    cases hs
    cases hs'
    exact ⟨.inl rfl, fun hjump => absurd hjump hstore⟩
  | 1 =>
    cases hs
    cases hs'
    exact ⟨.inr ⟨h, h'⟩, fun _ => ⟨rfl, hwritten⟩⟩
  | _ + 2 => cases hs

/-- The second program calls its store a load, its jump holds another address, and its memory is
empty. -/
theorem strayJump_unsteered :
    let m := (create {} storeCatalog).load (strayJump "implant $sp,0($gp)" 0x08000000)
    let m' :=
      ((create {} storeCatalog).load (strayJump "cnjr $t0,0($t1)" 0x0ABCDEF0)).setMemory .empty
    m.Alike m' ∧ m.Accesses .implant Registers.defaultGlobalPointer 29 ∧
      m'.Accesses .implant Registers.defaultGlobalPointer 29 ∧
      let x := after attempt 2 m
      let y := after attempt 2 m'
      y.pc = x.pc ∧ y.steps = x.steps ∧ y.storage.registers = x.storage.registers ∧
        y.runState = x.runState ∧ y.lastError? = x.lastError? ∧
          y.step.outcome = x.step.outcome := by
  intro m m'
  have halike : m.Alike m' :=
    boot_alike (strayJump_alike (by decide +kernel) (by decide +kernel))
      (Program.loadless_iff.mpr (by decide +kernel)) (Program.loadless_iff.mpr (by decide +kernel))
      {} .empty
  have hstore : m.Accesses .implant Registers.defaultGlobalPointer 29 :=
    .of_decode (fetch_eq_some_iff.mpr ⟨0, rfl, rfl⟩) ⟨.sequential, by decide +kernel⟩
      (by decide +kernel)
  have hstore' := ((loadless_unsteered halike 0).2.2.2.2.2.2 _ _).1.mpr hstore
  obtain ⟨hpc, hsteps, hregisters, hrunState, hlastError, houtcome, _⟩ :=
    loadless_unsteered halike 2
  exact ⟨halike, hstore, hstore', hpc, hsteps, hregisters, hrunState, hlastError, houtcome⟩

end Machine

end MagicAssembly
