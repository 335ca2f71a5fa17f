import Mathlib.Data.Nat.ModEq
import MagicAssembly.Proofs.Apart
import MagicAssembly.Proofs.Coherence

namespace MagicAssembly

namespace Word

/-- The addresses are whole words apart, if need be around the address space. -/
def InPhase (a b : Word) : Prop :=
  a.toNat ≡ b.toNat [MOD 4]

theorem next_inPhase (pc : Word) : (pc + 4).InPhase pc := by
  have hfour : (4 : Word).toNat = 4 := rfl
  have hpc := pc.isLt
  simp only [InPhase, Nat.ModEq, BitVec.toNat_add, hfour]
  omega

theorem branchTarget_inPhase (w pc : Word) : (w.branchTarget pc).InPhase pc := by
  simp only [InPhase, Nat.ModEq, branchTarget, wrap, BitVec.toNat_ofInt]
  omega

end Word

namespace Labels

/-- All labels are in phase with the address. -/
def InPhase (labels : Labels) (a : Word) : Prop :=
  ∀ scope name label, labels.get? scope name = some label → label.address.InPhase a

theorem empty_inPhase (a : Word) : empty.InPhase a := by
  intro scope name label h
  rw [get_empty] at h
  cases h

namespace InPhase

variable {labels labels' : Labels} {a : Word} (h : labels.InPhase a)

include h

theorem define {scope : Scope} {name : String} {label : Label} (address : label.address.InPhase a)
    (defined : labels.define scope name label = .ok labels') : labels'.InPhase a := by
  intro scope' name' label' hlabel
  rw [get_define defined] at hlabel
  split at hlabel
  · cases hlabel
    exact address
  · exact h scope' name' label' hlabel

theorem resolve {name : String} {target : Word} (resolved : labels.resolve? name = some target) :
    target.InPhase a := by
  obtain ⟨label, hlabel, rfl⟩ := Option.map_eq_some_iff.mp resolved
  rcases Option.or_eq_some_iff.mp hlabel with hfile | ⟨_, hglobal⟩
  · exact h .file name label hfile
  · exact h .global name label hglobal

end InPhase

end Labels

/-- All the ways on from the word `w` at `pc`. -/
inductive Control.Possible (labels : Labels) (w pc : Word) : Control → Prop
  | sequential : Possible labels w pc .sequential
  | branch : Possible labels w pc (.transfer (w.branchTarget pc))
  | jump {name : String} {target : Word} (resolved : labels.resolve? name = some target) :
      Possible labels w pc (.transfer target)

section

variable {labels : Labels} {s : Storage} {w pc : Word} {e : Effect}

theorem Instruction.branch_possible {whenEqual : Bool} {rs rt : Register} {target : Word}
    (h : effect labels s (.branch whenEqual rs rt target) = .ok e)
    (target_eq : target = w.branchTarget pc) : e.control.Possible labels w pc := by
  cases h
  subst target_eq
  dsimp only
  split
  · exact .branch
  · exact .sequential

theorem Instruction.jump_possible {label : Option String}
    (h : effect labels s (.jump label) = .ok e) : e.control.Possible labels w pc := by
  cases label with
  | none => cases h
  | some name =>
    simp only [effect] at h
    split at h
    · cases h
    · next resolved =>
      cases h
      exact .jump resolved

theorem Instruction.load_sequential {rt base : Register} {offset : Word}
    (h : effect labels s (.load rt base offset) = .ok e) : e.control = .sequential := by
  simp only [effect] at h
  split at h <;> cases h
  rfl

theorem Catalog.standard_possible {c : Catalog} (hc : standard = .ok c) {d : Decoded}
    (decode : c.decode w pc = some d) {tokens : List String}
    (effect : (d.instruction tokens).effect labels s = .ok e) : e.control.Possible labels w pc := by
  obtain ⟨_, hvalues⟩ := standard_decode hc decode
  unfold Decoded.instruction at effect
  generalize d.definition.opcode = op at hvalues effect
  have hsequential (h : e.control = .sequential) : e.control.Possible labels w pc := by
    rw [h]
    exact .sequential
  cases op with
  | ward | curse => exact Instruction.branch_possible effect (Operands.branch_fields hvalues).2.2
  | teleport => exact Instruction.jump_possible effect
  | conjure => exact hsequential (Instruction.load_sequential effect)
  | _ =>
    refine hsequential (Instruction.Plain.control ?_ effect)
    trivial

end

namespace Machine

/-- Nothing but a label leads a step out of phase. -/
theorem step_inPhase {m : Machine} (hc : Catalog.standard = .ok m.catalog) :
    m.step.machine.pc.InPhase m.pc ∨
      ∃ name, m.program.labels.resolve? name = some m.step.machine.pc := by
  generalize hr : m.step = r
  cases stepCase hr with
  | latched | finished | spent | lost | past | undecoded | refused => exact .inl rfl
  | @retired s d e status budget fetch decode effect =>
    obtain ⟨writes, control⟩ := e
    cases (Catalog.standard_possible hc decode effect : control.Possible ..) with
    | sequential => exact .inl (Word.next_inPhase m.pc)
    | branch => exact .inl (Word.branchTarget_inPhase _ m.pc)
    | jump resolved => exact .inr ⟨_, resolved⟩

/-- Program and place are in phase with the text base. -/
structure InPhase (m : Machine) : Prop where
  standard : Catalog.standard = .ok m.catalog
  labels : m.program.labels.InPhase m.config.textBase
  pc : m.pc.InPhase m.config.textBase

namespace InPhase

variable {m : Machine} (h : m.InPhase)

theorem boot {config : Config} {catalog : Catalog} {program : Program}
    (standard : Catalog.standard = .ok catalog) (labels : program.labels.InPhase config.textBase) :
    (boot config catalog program).InPhase :=
  ⟨standard, labels, rfl⟩

include h

theorem step : m.step.machine.InPhase := by
  obtain ⟨standard, labels, pc⟩ := h
  refine ⟨?_, ?_, ?_⟩
  · rw [step_catalog]
    exact standard
  · rwa [step_program, step_config]
  · rw [step_config]
    rcases step_inPhase standard with hpc | ⟨name, resolved⟩
    · exact hpc.trans pc
    · exact labels.resolve resolved

theorem call {c : Call}
    (loads : ∀ program, c = .load program → program.labels.InPhase m.config.textBase) :
    (m.call c).InPhase := by
  cases c with
  | load program => exact boot h.standard (loads program rfl)
  | reset => exact boot h.standard h.labels
  | step => exact h.step
  | run => exact run_invariant InPhase (fun _ hn => hn.step) h
  | setRegister | memory => exact ⟨h.standard, h.labels, h.pc⟩

/-- What is out of reach lies below the text base. -/
theorem outOfRange {e : AddressError} (lost : m.fetch = .error e) : e = ⟨m.pc, .outOfRange⟩ := by
  obtain ⟨cause, hcause, rfl⟩ := fetch_eq_error_iff.mp lost
  have hpc := h.pc
  unfold Word.InPhase Nat.ModEq at hpc
  unfold Config.fetchFault? at hcause
  split at hcause
  · cases hcause
    rfl
  · split at hcause
    · omega
    · cases hcause

end InPhase

/-- An error at a place where no statement starts is an error of the fetch. -/
theorem Explains.lost_of_nowhere {m : Machine} {e : ExecutionError} (h : m.Explains e)
    (nowhere : ∀ i < m.program.size, m.statementAddress? i ≠ some m.pc) :
    ∃ cause, m.fetch = .error cause ∧ e = ⟨"(fetch)", m.pc, .address cause⟩ := by
  have hnothing (s : Statement) : m.fetch ≠ .ok (some s) := by
    intro fetch
    obtain ⟨i, haddress, hs⟩ := fetch_eq_some_iff.mp fetch
    obtain ⟨hi, _⟩ := Array.getElem?_eq_some_iff.mp hs
    exact nowhere i hi haddress
  cases h with
  | lost fetch => exact ⟨_, fetch, rfl⟩
  | undecoded fetch | refused fetch => exact absurd fetch (hnothing _)

/-- Where all labels are in phase with the text base, the `pc` stays so, and no fetch finds it
unaligned. -/
theorem never_unaligned {catalog : Catalog} (hc : Catalog.standard = .ok catalog) (config : Config)
    {cs : List Call}
    (h : ∀ program, .load program ∈ cs → program.labels.InPhase config.textBase) :
    let m := (create config catalog).calls cs
    m.pc.InPhase config.textBase ∧
    (∀ e, m.fetch = .error e → e = ⟨m.pc, .outOfRange⟩) ∧
    ∀ e, m.lastError? = some e → (∀ i < m.program.size, m.statementAddress? i ≠ some m.pc) →
      e = ⟨"(fetch)", m.pc, .address ⟨m.pc, .outOfRange⟩⟩ := by
  intro m
  have hphase : m.InPhase ∧ m.config = config := by
    refine calls_keep (P := fun n => n.InPhase ∧ n.config = config) ?_
      ⟨.boot hc (Labels.empty_inPhase _), rfl⟩
    rintro n c hcall ⟨hn, rfl⟩
    refine ⟨hn.call ?_, n.call_config c⟩
    rintro program rfl
    exact h program hcall
  have hcoherent : m.Coherent :=
    calls_keep (fun _ c _ hn => hn.call c) (.of_running rfl (Nat.zero_le _))
  obtain ⟨hm, hconfig⟩ := hphase
  refine ⟨hconfig ▸ hm.pc, fun e => hm.outOfRange, ?_⟩
  intro e he nowhere
  obtain ⟨cause, hlost, rfl⟩ :=
    (hcoherent.error e (Status.fault_eq_some_iff.mp he)).lost_of_nowhere nowhere
  rw [hm.outOfRange hlost]

/-- A branch back to the word in front of it. -/
def backward : Program :=
  Program.empty.push 0x1000FFFE "ward $zero,$zero,below"

/-- It is taken, whatever its labels are. -/
theorem backward_step {c : Catalog} (hc : Catalog.standard = .ok c) (labels : Labels)
    (base : Word) :
    ((create { textBase := base } c).load { backward with labels }).step.machine.pc =
      (0x1000FFFE : Word).branchTarget base := by
  let m := (create { textBase := base } c).load { backward with labels }
  let tokens := tokenize "ward $zero,$zero,below"
  have hbudget : m.steps < m.config.stepBudget := Nat.zero_lt_succ _
  have hfetch : m.fetch = .ok (some ⟨0x1000FFFE, tokens⟩) :=
    fetch_eq_some_iff.mpr ⟨0, Config.address_eq_some_iff.mpr rfl, rfl⟩
  have hword : Opcode.ward.template.Matches 0x1000FFFE := by decide
  obtain ⟨d, hdecode, hop⟩ := Catalog.standard_decodes hc hword m.pc
  have hvalues := (Catalog.standard_decode hc hdecode).2
  rw [hop] at hvalues
  obtain ⟨hrs, hrt, htarget⟩ := Operands.branch_fields hvalues
  have hregisters : d.operands.register 0 = d.operands.register 1 := by
    rw [hrs, hrt]
    decide
  obtain ⟨e, heffect, hcontrol⟩ : ∃ e,
      (d.instruction tokens).effect m.program.labels m.storage = .ok e ∧
        e.control = .transfer (d.operands.value 2) := by
    rw [Decoded.instruction, hop]
    refine ⟨_, rfl, if_pos ?_⟩
    rw [hregisters, beq_self_eq_true]
  have hstep := (StepCase.retired rfl hbudget hfetch hdecode heffect).step_eq
  have hpc : m.step.machine.pc = e.control.next m.pc := by
    rw [hstep]
    rfl
  rw [hcontrol, htarget] at hpc
  exact hpc

/-- Off the grid of words and around the end of the address space the branch keeps its phase. -/
theorem backward_never_unaligned :
    ∃ c program, Catalog.standard = .ok c ∧
      backward.define .file "below" ⟨0xFFFFFFFE, 1⟩ = .ok program ∧
      let cs := [.load program, .step]
      (∀ loaded, .load loaded ∈ cs → loaded.labels.InPhase 2) ∧
        let m := (create { textBase := 2 } c).calls cs
        m.pc = 0xFFFFFFFE ∧ m.pc.InPhase 2 ∧
          (∀ e, m.fetch = .error e → e = ⟨m.pc, .outOfRange⟩) ∧
          ∀ e, m.lastError? = some e → (∀ i < m.program.size, m.statementAddress? i ≠ some m.pc) →
            e = ⟨"(fetch)", m.pc, .address ⟨m.pc, .outOfRange⟩⟩ := by
  obtain ⟨c, hc⟩ := Catalog.standard_ok
  have hnew : Labels.empty.get? .file "below" = none := Std.ExtHashMap.getElem?_empty
  obtain ⟨labels, hlabels⟩ : ∃ ls, Labels.empty.define .file "below" ⟨0xFFFFFFFE, 1⟩ = .ok ls := by
    simp only [Labels.define, hnew]
    exact ⟨_, rfl⟩
  have haddress : Word.InPhase 0xFFFFFFFE 2 := rfl
  have hphase : labels.InPhase 2 := (Labels.empty_inPhase 2).define haddress hlabels
  let program : Program := { backward with labels }
  let cs : List Call := [.load program, .step]
  have hloads : ∀ loaded, .load loaded ∈ cs → loaded.labels.InPhase 2 := by
    intro loaded hloaded
    obtain rfl : loaded = program := by simpa [cs] using hloaded
    exact hphase
  have htarget : (0x1000FFFE : Word).branchTarget 2 = 0xFFFFFFFE := by decide
  exact ⟨c, program, hc, congrArg (Except.map _) hlabels, hloads,
    (backward_step hc labels 2).trans htarget, never_unaligned hc { textBase := 2 } hloads⟩

end Machine

end MagicAssembly
