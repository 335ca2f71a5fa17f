import MagicAssembly.Proofs.CatalogCodec
import MagicAssembly.Proofs.Fetch
import MagicAssembly.Proofs.Lockstep
import MagicAssembly.Proofs.StepCases

namespace MagicAssembly

/-- A line of assembly, before it has a word. -/
structure Line where
  opcode : Opcode
  operands : List Word
  source : String

/-- What an interpreter of lines needs to know. The catalog only supplies the texts of faults. -/
structure Listing where
  config : Config
  catalog : Catalog
  labels : Labels
  lines : List Line

/-- What steps change of a machine. -/
structure Snapshot where
  storage : Storage
  pc : Word
  steps : Nat
  status : Status ExecutionError

def Machine.snapshot (m : Machine) : Snapshot :=
  ⟨m.storage, m.pc, m.steps, m.status⟩

/-- Three operands are all that there can be. -/
theorem Operands.eq_ofFirst {ops : Operands} {values : List Word} (h : ops.values = values) :
    ops = .ofFirst values := by
  obtain ⟨_, hlen⟩ := ops
  obtain rfl := h
  simp only [ofFirst, mk.injEq]
  exact (List.take_of_length_le hlen).symm

namespace Line

def tokens (x : Line) : List String :=
  tokenize x.source

def instruction (x : Line) : Instruction :=
  .ofOperands x.opcode (.ofFirst x.operands) x.tokens

theorem instruction_eq {x : Line} {d : Definition} (h : d.opcode = x.opcode) :
    Decoded.instruction ⟨d, .ofFirst x.operands⟩ x.tokens = x.instruction := by
  simp only [Decoded.instruction, instruction, h]

end Line

namespace Listing

def lineAt? (l : Listing) (pc : Word) : Option Line :=
  (l.lines.zipIdx.find? fun x => l.config.address? x.2 = some pc).map Prod.fst

def describe (l : Listing) (x : Line) : String :=
  if x.opcode = .teleport ∧ x.tokens ≠ [] then " ".intercalate x.tokens
  else (l.catalog.byOpcode? x.opcode).elim "" fun d => d.render (.ofFirst x.operands)

def stop (s : Snapshot) (text : String) (fault : Fault) : Snapshot × StepOutcome :=
  ({ s with status := .faulted ⟨text, s.pc, fault⟩ }, .fault fault.kind)

/-- Carries out the line at `pc`. No word is looked at. -/
def step (l : Listing) (s : Snapshot) : Snapshot × StepOutcome :=
  match s.status with
  | .faulted e => (s, .fault e.fault.kind)
  | .completed => (s, .completed)
  | .running =>
    if l.config.stepBudget ≤ s.steps then (s, .budgetExhausted)
    else match l.lineAt? s.pc with
      | some x =>
        match x.instruction.execute l.labels s.storage with
        | (.ok control, storage) =>
          ({ s with storage, pc := control.next s.pc, steps := s.steps + 1 }, .retired control)
        | (.error fault, storage) => stop { s with storage } (l.describe x) fault
      | none =>
        match l.config.fetchFault? s.pc with
        | some cause => stop s "(fetch)" (.address ⟨s.pc, cause⟩)
        | none => ({ s with status := .completed }, .completed)

/-- The program holds one statement for each line: the line encoded at its address, and the tokens
of its source. -/
structure Assembles (l : Listing) (p : Program) : Prop where
  labels : p.labels = l.labels
  size : p.statements.size = l.lines.length
  line : ∀ i (hi : i < l.lines.length) (hs : i < p.statements.size), ∃ a,
    l.config.address? i = some a ∧
      l.catalog.encode l.lines[i].opcode l.lines[i].operands a = some p.statements[i].word ∧
        p.statements[i].tokens = l.lines[i].tokens

theorem lineAt_eq_some_iff {l : Listing} {pc : Word} {x : Line} :
    l.lineAt? pc = some x ↔
      ∃ i, ∃ hi : i < l.lines.length, l.config.address? i = some pc ∧ l.lines[i] = x := by
  unfold lineAt?
  constructor
  · intro h
    obtain ⟨⟨y, i⟩, hfind, rfl⟩ := Option.map_eq_some_iff.mp h
    have haddress := List.find?_some hfind
    obtain ⟨hi, hy⟩ := List.getElem?_eq_some_iff.mp
      (List.mem_zipIdx_iff_getElem?.mp (List.mem_of_find?_eq_some hfind))
    exact ⟨i, hi, by simpa using haddress, hy⟩
  · rintro ⟨i, hi, haddress, rfl⟩
    have hmem : (l.lines[i], i) ∈ l.lines.zipIdx :=
      List.mem_zipIdx_iff_getElem?.mpr (List.getElem?_eq_getElem hi)
    cases hfind : l.lines.zipIdx.find? fun x => l.config.address? x.2 = some pc with
    | none => exact absurd haddress (by simpa using List.find?_eq_none.mp hfind _ hmem)
    | some y =>
      obtain ⟨y, j⟩ := y
      have hj : l.config.address? j = some pc := by simpa using List.find?_some hfind
      obtain ⟨_, hy⟩ := List.getElem?_eq_some_iff.mp
        (List.mem_zipIdx_iff_getElem?.mp (List.mem_of_find?_eq_some hfind))
      obtain rfl := Config.address_inj haddress hj
      exact congrArg some hy.symm

theorem lineAt_eq_none {l : Listing} {pc : Word}
    (h : ∀ i, i < l.lines.length → l.config.address? i ≠ some pc) : l.lineAt? pc = none := by
  cases hx : l.lineAt? pc with
  | none => rfl
  | some x =>
    obtain ⟨i, hi, haddress, _⟩ := lineAt_eq_some_iff.mp hx
    exact absurd haddress (h i hi)

/-- The machine holds the assembled program and is where the interpreter is. -/
structure Mirrors (l : Listing) (m : Machine) (s : Snapshot) : Prop where
  snapshot : m.snapshot = s
  config : m.config = l.config
  catalog : m.catalog = l.catalog
  program : l.Assembles m.program

section

variable {l : Listing} {m : Machine} {s : Snapshot}

/-- The word of the statement at `pc` is read as the line at `pc`. -/
theorem Mirrors.fetched (h : l.Mirrors m s) (hc : l.catalog.Valid) {st : Statement}
    (hf : m.fetch = .ok (some st)) :
    ∃ x d, l.lineAt? m.pc = some x ∧ st.tokens = x.tokens ∧ d.opcode = x.opcode ∧
      l.catalog.byOpcode? x.opcode = some d ∧
        m.catalog.decode st.word m.pc = some ⟨d, .ofFirst x.operands⟩ := by
  obtain ⟨i, haddress, hst⟩ := Machine.fetch_eq_some_iff.mp hf
  obtain ⟨hs, rfl⟩ := Array.getElem?_eq_some_iff.mp hst
  rw [h.config] at haddress
  have hi : i < l.lines.length := h.program.size ▸ hs
  obtain ⟨a, ha, hencode, htokens⟩ := h.program.line i hi hs
  obtain rfl := Option.some.inj (ha.symm.trans haddress)
  obtain ⟨d, ops, hop, hfirst, hvalues, hdecode⟩ := hc.decode_of_opcode hencode
  have hops : ops = .ofFirst l.lines[i].operands := Operands.eq_ofFirst hvalues
  rw [hops] at hdecode
  exact ⟨l.lines[i], d, lineAt_eq_some_iff.mpr ⟨i, hi, haddress, rfl⟩, htokens, hop,
    Catalog.byOpcode_eq_some_iff.mpr ⟨hop, hfirst⟩, h.catalog ▸ hdecode⟩

theorem Mirrors.unfetched (h : l.Mirrors m s)
    (hf : ∀ st, m.fetch ≠ .ok (some st)) : l.lineAt? m.pc = none := by
  apply lineAt_eq_none
  intro i hi haddress
  have hs : i < m.program.statements.size := h.program.size ▸ hi
  have hst := Array.getElem?_eq_getElem hs
  exact hf _ (Machine.fetch_eq_some_iff.mpr ⟨i, h.config ▸ haddress, hst⟩)

theorem describe_eq {x : Line} {d : Definition} (hop : d.opcode = x.opcode)
    (hd : l.catalog.byOpcode? x.opcode = some d) :
    l.describe x = Decoded.describe ⟨d, .ofFirst x.operands⟩ x.tokens := by
  simp only [describe, Decoded.describe, hop, hd, Option.elim_some, Decoded.render]

theorem Mirrors.step (h : l.Mirrors m s) (hc : l.catalog.Valid) :
    l.Mirrors m.attempt.1 (l.step s).1 ∧ (l.step s).2 = m.attempt.2 := by
  suffices hsnap : l.step s = (m.step.machine.snapshot, m.step.outcome) by
    rw [hsnap]
    refine ⟨⟨rfl, ?_, ?_, ?_⟩, rfl⟩
    · exact (Machine.step_config m).trans h.config
    · exact (Machine.step_catalog m).trans h.catalog
    · exact (Machine.step_program m).symm ▸ h.program
  obtain rfl := h.snapshot
  have hlabels : m.program.labels = l.labels := h.program.labels
  unfold Listing.step
  simp only [Machine.snapshot, ← h.config, ← hlabels]
  generalize hr : m.step = r
  cases Machine.stepCase hr with
  | latched status => simp only [status]
  | finished status => simp only [status]
  | spent status budget => simp only [status, if_pos budget]
  | lost status budget fetch =>
    obtain ⟨cause, hcause, rfl⟩ := Machine.fetch_eq_error_iff.mp fetch
    have hline := h.unfetched (by simp [fetch])
    simp only [status, if_neg (Nat.not_le.mpr budget), hline, hcause]
    rfl
  | past status budget fetch =>
    have hcause := Machine.fetchFault_eq_none fetch
    have hline := h.unfetched (by simp [fetch])
    simp only [status, if_neg (Nat.not_le.mpr budget), hline, hcause]
    rfl
  | undecoded status budget fetch decode =>
    obtain ⟨x, d, _, _, _, _, hdecode⟩ := h.fetched hc fetch
    rw [decode] at hdecode
    cases hdecode
  | refused status budget fetch decode effect =>
    obtain ⟨x, d, hline, htokens, hop, hd, hdecode⟩ := h.fetched hc fetch
    obtain rfl := Option.some.inj (decode.symm.trans hdecode)
    rw [htokens] at effect ⊢
    have heffect : x.instruction.effect m.program.labels m.storage = _ :=
      Line.instruction_eq hop ▸ effect
    simp only [status, if_neg (Nat.not_le.mpr budget), hline, Instruction.execute, heffect,
      describe_eq hop hd]
    rfl
  | retired status budget fetch decode effect =>
    obtain ⟨x, d, hline, htokens, hop, hd, hdecode⟩ := h.fetched hc fetch
    obtain rfl := Option.some.inj (decode.symm.trans hdecode)
    rw [htokens] at effect
    have heffect : x.instruction.effect m.program.labels m.storage = _ :=
      Line.instruction_eq hop ▸ effect
    simp only [status, if_neg (Nat.not_le.mpr budget), hline, Instruction.execute, heffect]
    rfl

end

/-- Running the words of an assembled program is carrying out its lines: every outcome and every
state agree, however many steps are made. -/
theorem run_assembled {l : Listing} (hc : l.catalog.Reachable) {p : Program} (hp : l.Assembles p)
    (n : Nat) :
    let m := (Machine.create l.config l.catalog).load p
    (after Machine.attempt n m).snapshot = after l.step n m.snapshot ∧
      reports Machine.attempt n m = reports l.step n m.snapshot := by
  intro m
  have hstart : l.Mirrors m m.snapshot := ⟨rfl, rfl, rfl, hp⟩
  obtain ⟨hafter, hreports⟩ :=
    lockstep id (fun m s h => Mirrors.step h hc.valid) n hstart
  exact ⟨hafter.snapshot, by rw [hreports, List.map_id]⟩

/-- Two lines that go round until the budget is spent. -/
def chargeLoop : Listing where
  config := { stepBudget := 5 }
  catalog := (Catalog.empty.offer
    { opcode := .charge, usage := "chrg $t0", kind := .register
      description := "", template := "000000 00000 sssss 00000 00000 010101" }).offer
    { opcode := .ward, usage := "ward $t0,$t1,label", kind := .branch
      description := "", template := "000100 sssss ttttt branchoffset" }
  labels := .empty
  lines := [⟨.charge, [8], "chrg $t0"⟩, ⟨.ward, [0, 0, 0x400000], "ward $zero,$zero,top"⟩]

def chargeLoopProgram : Program :=
  (Program.empty.push 0x00080015 "chrg $t0").push 0x1000FFFE "ward $zero,$zero,top"

theorem run_chargeLoop :
    chargeLoop.catalog.Reachable ∧ chargeLoop.Assembles chargeLoopProgram ∧
      (let m := (Machine.create chargeLoop.config chargeLoop.catalog).load chargeLoopProgram
      (after Machine.attempt 6 m).snapshot = after chargeLoop.step 6 m.snapshot ∧
        reports Machine.attempt 6 m = reports chargeLoop.step 6 m.snapshot) := by
  have hc : chargeLoop.catalog.Reachable := by
    dsimp only [chargeLoop]
    exact (Catalog.Reachable.empty.offer _).offer _
  have hcharge : chargeLoop.catalog.encode .charge [8] 0x400000 = some 0x00080015 := by
    decide +kernel
  have hward : chargeLoop.catalog.encode .ward [0, 0, 0x400000] 0x400004 = some 0x1000FFFE := by
    decide +kernel
  have hp : chargeLoop.Assembles chargeLoopProgram := by
    refine ⟨rfl, rfl, ?_⟩
    intro i hi hs
    match i with
    | 0 => exact ⟨0x400000, rfl, hcharge, rfl⟩
    | 1 => exact ⟨0x400004, rfl, hward, rfl⟩
  exact ⟨hc, hp, run_assembled hc hp 6⟩

end Listing

end MagicAssembly
