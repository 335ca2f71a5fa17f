import MagicAssembly.Proofs.Meaning
import MagicAssembly.Proofs.MemoryAccess

namespace MagicAssembly

/-- The second address lies `d` behind the first. -/
def Word.Apart (d : Int) (x y : Word) : Prop :=
  (y.toNat : Int) = x.toNat + d

inductive Control.Apart (d : Int) : Control → Control → Prop
  | sequential : Apart d .sequential .sequential
  | transfer {x y : Word} (target : Word.Apart d x y) : Apart d (.transfer x) (.transfer y)

inductive StepOutcome.Apart (d : Int) : StepOutcome → StepOutcome → Prop
  | retired {x y : Control} (control : x.Apart d y) : Apart d (.retired x) (.retired y)
  | completed : Apart d .completed .completed
  | fault (kind : FaultKind) : Apart d (.fault kind) (.fault kind)
  | budgetExhausted : Apart d .budgetExhausted .budgetExhausted

def Labels.Apart (d : Int) (labels labels' : Labels) : Prop :=
  ∀ scope name, Option.Rel (fun x y : Label => Word.Apart d x.address y.address)
    (labels.get? scope name) (labels'.get? scope name)

theorem Labels.Apart.resolve {d : Int} {labels labels' : Labels} (h : labels.Apart d labels')
    (name : String) :
    Option.Rel (Word.Apart d) (labels.resolve? name) (labels'.resolve? name) := by
  have hfile := h .file name
  have hglobal := h .global name
  unfold resolve?
  generalize labels.get? .file name = x, labels'.get? .file name = x' at hfile
  generalize labels.get? .global name = y, labels'.get? .global name = y' at hglobal
  cases hfile with
  | some address => exact .some address
  | none =>
    cases hglobal with
    | some address => exact .some address
    | none => exact .none

/-- A new name, defined `d` apart, keeps the labels so. -/
theorem Labels.Apart.define {d : Int} {labels labels' : Labels} (h : labels.Apart d labels')
    {x y : Label} (address : Word.Apart d x.address y.address) {scope : Scope} {name : String}
    (new : labels.get? scope name = none) :
    ∃ ls ls', labels.define scope name x = .ok ls ∧ labels'.define scope name y = .ok ls' ∧
      ls.Apart d ls' := by
  have new' : labels'.get? scope name = none := by
    have hname := h scope name
    rw [new] at hname
    generalize labels'.get? scope name = z at hname ⊢
    cases hname
    rfl
  have hls := Labels.define_of_new new x
  have hls' := Labels.define_of_new new' y
  refine ⟨_, _, hls, hls', fun scope' name' => ?_⟩
  rw [Labels.get_define hls, Labels.get_define hls']
  split
  · exact .some address
  · exact h scope' name'

namespace Instruction

/-- Loads nothing and goes nowhere. -/
def Plain : Instruction → Prop
  | .load .. | .branch .. | .jump _ => False
  | _ => True

/-- The same instruction, `d` further on. It loads nothing. -/
inductive Apart (d : Int) : Instruction → Instruction → Prop
  | plain {i : Instruction} (h : i.Plain) : Apart d i i
  | branch {whenEqual : Bool} {rs rt : Register} {x y : Word} (target : Word.Apart d x y) :
      Apart d (.branch whenEqual rs rt x) (.branch whenEqual rs rt y)
  | jump (label : Option String) : Apart d (.jump label) (.jump label)

/-- Effects that fault alike, or make the same writes and go on `d` apart. -/
inductive EffectsApart (d : Int) : Except Fault Effect → Except Fault Effect → Prop
  | error (fault : Fault) : EffectsApart d (.error fault) (.error fault)
  | ok (writes : List Write) {x y : Control} (control : x.Apart d y) :
      EffectsApart d (.ok ⟨writes, x⟩) (.ok ⟨writes, y⟩)

theorem EffectsApart.sequential {d : Int} {x : Except Fault Effect}
    (h : ∀ e, x = .ok e → e.control = .sequential) : EffectsApart d x x := by
  cases x with
  | error fault => exact .error fault
  | ok e =>
    obtain ⟨writes, control⟩ := e
    obtain rfl : control = .sequential := h _ rfl
    exact .ok writes .sequential

section

variable {i : Instruction} {s s' : Storage}

/-- A plain instruction works on the registers alone. -/
theorem Plain.effect_eq (h : i.Plain) (registers : s'.registers = s.registers)
    (labels labels' : Labels) : i.effect labels' s' = i.effect labels s := by
  cases i with
  | load | branch | jump => cases h
  | _ => simp only [effect, Storage.get_of_registers registers]

theorem Plain.control (h : i.Plain) {labels : Labels} {e : Effect}
    (heffect : i.effect labels s = .ok e) : e.control = .sequential := by
  cases i with
  | load | branch | jump => cases h
  | binary | binaryImmediate =>
    obtain ⟨value, rfl⟩ := BinaryOp.map_apply_ok heffect
    rfl
  | unary | swap | clear | increment =>
    cases heffect
    rfl
  | store rt base offset =>
    simp only [effect] at heffect
    split at heffect <;> cases heffect
    rfl

theorem Apart.effect {d : Int} {i' : Instruction} (h : Apart d i i')
    (registers : s'.registers = s.registers) {labels labels' : Labels}
    (hlabels : labels.Apart d labels') :
    EffectsApart d (i.effect labels s) (i'.effect labels' s') := by
  cases h with
  | plain h =>
    rw [h.effect_eq registers labels labels']
    exact .sequential fun e => h.control
  | @branch whenEqual rs rt x y target =>
    simp only [Instruction.effect, Storage.get_of_registers registers]
    refine .ok [] ?_
    by_cases htaken : (s.get rs == s.get rt) = whenEqual
    · rw [if_pos htaken, if_pos htaken]
      exact .transfer target
    · rw [if_neg htaken, if_neg htaken]
      exact .sequential
  | jump label =>
    cases label with
    | none => exact .error .missingLabel
    | some name =>
      have htarget := hlabels.resolve name
      simp only [Instruction.effect]
      generalize labels.resolve? name = x, labels'.resolve? name = y at htarget
      cases htarget with
      | some target => exact .ok [] (.transfer target)
      | none => exact .error (.unresolved name)

end

end Instruction

theorem Operands.ext_values {ops ops' : Operands} (h : ops.values = ops'.values) : ops = ops' := by
  obtain ⟨values, _⟩ := ops
  obtain ⟨values', _⟩ := ops'
  obtain rfl : values = values' := h
  rfl

/-- Registers and immediates are read off the word alone. -/
theorem Template.values_elsewhere {t : Template}
    (h : ∀ f ∈ t.fields, f.kind = .register ∨ f.kind = .immediate) (w pc pc' : Word) :
    t.values w pc' = t.values w pc := by
  refine List.map_congr_left fun f hf => ?_
  rcases h f hf with hkind | hkind <;> simp only [Field.extract, hkind, FieldKind.operand]

theorem Operands.branch_fields {ops : Operands} {w pc : Word}
    (h : ops.values = [Field.extract ⟨.register, 21, 5⟩ w pc,
      Field.extract ⟨.register, 16, 5⟩ w pc, Field.extract ⟨.branchOffset, 0, 16⟩ w pc]) :
    ops.register 0 = w.registerAt 21 ∧ ops.register 1 = w.registerAt 16 ∧
      ops.value 2 = w.branchTarget pc :=
  ⟨(register_eq h 0).trans (Field.extract_register 21 w pc),
    (register_eq h 1).trans (Field.extract_register 16 w pc),
    (value_eq h 2).trans (Field.extract_branchOffset w pc)⟩

/-- Only a branch sees from its operands where it stands. -/
theorem Opcode.instruction_apart {d : Int} {op : Opcode} {ops ops' : Operands} {w pc pc' : Word}
    (h : ops.values = op.template.values w pc) (h' : ops'.values = op.template.values w pc')
    (loadless : op ≠ .conjure) (target : Word.Apart d (w.branchTarget pc) (w.branchTarget pc'))
    (tokens : List String) :
    Instruction.Apart d (.ofOperands op ops tokens) (.ofOperands op ops' tokens) := by
  cases op with
  | conjure => exact absurd rfl loadless
  | ward | curse =>
    obtain ⟨hrs, hrt, htarget⟩ := Operands.branch_fields h
    obtain ⟨hrs', hrt', htarget'⟩ := Operands.branch_fields h'
    simp only [Instruction.ofOperands, instruction, hrs, hrt, htarget, hrs', hrt', htarget']
    exact .branch target
  | teleport => exact .jump _
  | _ =>
    have hvalues : ops'.values = ops.values := by
      rw [h', h]
      exact Template.values_elsewhere (by decide) w pc pc'
    obtain rfl : ops' = ops := Operands.ext_values hvalues
    exact .plain trivial

end MagicAssembly
