import Mathlib.Algebra.Group.Nat.Defs
import MagicAssembly.Proofs.Atomicity
import MagicAssembly.Proofs.StandardTable

namespace MagicAssembly

namespace Access

def getAt (index : Nat) : Access Word :=
  fun s => (.ok (s.registers.get index), s)

def setAt (index : Nat) (value : Word) : Access Unit :=
  fun s => (.ok (), { s with registers := s.registers.set index value })

end Access

/-- How the operands of a rule are read, position by position: as register numbers of any size, or
as values. -/
structure OperandReader where
  register : Nat → Access Nat
  value : Nat → Access Word

namespace OperandReader

variable (r : OperandReader)

def binary (op : BinaryOp) : Access Control := do
  let rd ← r.register 0
  let rs ← r.register 1
  let rt ← r.register 2
  let lhs ← .getAt rs
  let rhs ← .getAt rt
  let result ← .compute (op.apply lhs rhs)
  .setAt rd result
  return .sequential

def binaryImmediate (op : BinaryOp) : Access Control := do
  let rd ← r.register 0
  let rs ← r.register 1
  let immediate ← r.value 2
  let lhs ← .getAt rs
  let result ← .compute (op.apply lhs immediate)
  .setAt rd result
  return .sequential

def unary (op : UnaryOp) : Access Control := do
  let rd ← r.register 0
  let rs ← r.register 1
  let value ← .getAt rs
  .setAt rd (op.apply value)
  return .sequential

def swap : Access Control := do
  let rs ← r.register 0
  let rt ← r.register 1
  let first ← .getAt rs
  let second ← .getAt rt
  .setAt rs second
  .setAt rt first
  return .sequential

def clear : Access Control := do
  let rd ← r.register 0
  .setAt rd 0
  return .sequential

def increment : Access Control := do
  let rs ← r.register 0
  let value ← .getAt rs
  .setAt rs (value + 1)
  return .sequential

def load : Access Control := do
  let rt ← r.register 0
  let rs ← r.register 1
  let base ← .getAt rs
  let offset ← r.value 2
  let value ← .load (effectiveAddress base offset)
  .setAt rt value
  return .sequential

def store : Access Control := do
  let rt ← r.register 0
  let rs ← r.register 1
  let base ← .getAt rs
  let offset ← r.value 2
  let value ← .getAt rt
  .store (effectiveAddress base offset) value
  return .sequential

def branch (whenEqual : Bool) : Access Control := do
  let rs ← r.register 0
  let rt ← r.register 1
  let target ← r.value 2
  let first ← .getAt rs
  let second ← .getAt rt
  return if (first == second) = whenEqual then .transfer target else .sequential

end OperandReader

namespace Opcode

/-- The rules over operands that are still to be read. -/
def rule (labels : Labels) (tokens : List String) (r : OperandReader) : Opcode → Access Control
  | .fuse => r.binary .add
  | .dispel => r.binary .subtract
  | .alchemize => r.binary .multiply
  | .dissipate => r.binary .divide
  | .bind => r.binary .and
  | .sever => r.binary .or
  | .veil => r.binary .xor
  | .amplify => r.binaryImmediate .multiply
  | .channel => r.binaryImmediate .add
  | .transmute => r.unary .copy
  | .clone => r.unary .double
  | .barrier => r.unary .clamp
  | .swap => r.swap
  | .cancel => r.clear
  | .charge => r.increment
  | .conjure => r.load
  | .implant => r.store
  | .ward => r.branch true
  | .curse => r.branch false
  | .teleport => (Instruction.jump (labelToken? tokens)).accesses labels

/-- What is read at the position as a register matters to the rule. -/
def ReadsRegister (op : Opcode) (position : Nat) : Prop :=
  ∃ labels tokens r r', r'.value = r.value ∧ (∀ p ≠ position, r'.register p = r.register p) ∧
    op.rule labels tokens r' ≠ op.rule labels tokens r

/-- What is read at the position as a value matters to the rule. -/
def ReadsValue (op : Opcode) (position : Nat) : Prop :=
  ∃ labels tokens r r', r'.register = r.register ∧ (∀ p ≠ position, r'.value p = r.value p) ∧
    op.rule labels tokens r' ≠ op.rule labels tokens r

def registerPositions : Opcode → List Nat
  | .fuse | .dispel | .alchemize | .dissipate | .bind | .sever | .veil => [0, 1, 2]
  | .conjure | .implant | .channel | .amplify | .ward | .curse => [0, 1]
  | .transmute | .clone | .barrier | .swap => [0, 1]
  | .cancel | .charge => [0]
  | .teleport => []

def valuePositions : Opcode → List Nat
  | .conjure | .implant | .channel | .amplify | .ward | .curse => [2]
  | _ => []

/-- No rule reads anything but its positions. -/
theorem rule_congr {op : Opcode} {r r' : OperandReader}
    (hr : ∀ p ∈ op.registerPositions, r'.register p = r.register p)
    (hv : ∀ p ∈ op.valuePositions, r'.value p = r.value p) (labels : Labels)
    (tokens : List String) : op.rule labels tokens r' = op.rule labels tokens r := by
  cases op with
  | fuse | dispel | alchemize | dissipate | bind | sever | veil =>
    simp only [rule, OperandReader.binary, hr 0 (by decide), hr 1 (by decide), hr 2 (by decide)]
  | channel | amplify =>
    simp only [rule, OperandReader.binaryImmediate, hr 0 (by decide), hr 1 (by decide),
      hv 2 (by decide)]
  | transmute | clone | barrier =>
    simp only [rule, OperandReader.unary, hr 0 (by decide), hr 1 (by decide)]
  | swap => simp only [rule, OperandReader.swap, hr 0 (by decide), hr 1 (by decide)]
  | cancel => simp only [rule, OperandReader.clear, hr 0 (by decide)]
  | charge => simp only [rule, OperandReader.increment, hr 0 (by decide)]
  | conjure =>
    simp only [rule, OperandReader.load, hr 0 (by decide), hr 1 (by decide), hv 2 (by decide)]
  | implant =>
    simp only [rule, OperandReader.store, hr 0 (by decide), hr 1 (by decide), hv 2 (by decide)]
  | ward | curse =>
    simp only [rule, OperandReader.branch, hr 0 (by decide), hr 1 (by decide), hv 2 (by decide)]
  | teleport => rfl

/-- Finds 0 wherever it reads. -/
def zeros : OperandReader :=
  ⟨fun _ => pure 0, fun _ => pure 0⟩

/-- Finds 0 in all places but one, where it faults. -/
def zerosButRegister (position : Nat) : OperandReader :=
  ⟨fun p => if p = position then .fail .missingLabel else pure 0, fun _ => pure 0⟩

def zerosButValue (position : Nat) : OperandReader :=
  ⟨fun _ => pure 0, fun p => if p = position then .fail .missingLabel else pure 0⟩

/-- No rule but the jump misses a label. -/
theorem rule_zeros {op : Opcode} (h : op ≠ .teleport) (labels : Labels) (s : Storage) :
    op.rule labels [] zeros s ≠ (.error .missingLabel, s) := by
  intro heq
  cases op with
  | teleport => exact h rfl
  | _ => cases congrArg Prod.fst heq

theorem rule_zerosButRegister {op : Opcode} {p : Nat} (h : p ∈ op.registerPositions)
    (labels : Labels) (s : Storage) :
    op.rule labels [] (zerosButRegister p) s = (.error .missingLabel, s) := by
  cases op <;> simp only [registerPositions, List.mem_cons, List.not_mem_nil, or_false] at h <;>
    rcases h with rfl | rfl | rfl <;> rfl

theorem rule_zerosButValue {op : Opcode} {p : Nat} (h : p ∈ op.valuePositions)
    (labels : Labels) (s : Storage) :
    op.rule labels [] (zerosButValue p) s = (.error .missingLabel, s) := by
  cases op <;> simp only [valuePositions, List.mem_cons, List.not_mem_nil, or_false] at h <;>
    subst h <;> rfl

theorem readsRegister_iff {op : Opcode} {p : Nat} :
    op.ReadsRegister p ↔ p ∈ op.registerPositions := by
  constructor
  · rintro ⟨labels, tokens, r, r', hvalue, hother, hne⟩
    refine Decidable.of_not_not fun hp => hne (rule_congr ?_ ?_ labels tokens)
    · intro q hq
      exact hother q (ne_of_mem_of_not_mem hq hp)
    · intro q _
      rw [hvalue]
  · intro hp
    have hop : op ≠ .teleport := by
      rintro rfl
      cases hp
    refine ⟨.empty, [], zeros, zerosButRegister p, rfl, fun q hq => if_neg hq, fun heq => ?_⟩
    have hfails := rule_zerosButRegister hp .empty ⟨.zeroed, .empty⟩
    rw [heq] at hfails
    exact rule_zeros hop _ _ hfails

theorem readsValue_iff {op : Opcode} {p : Nat} : op.ReadsValue p ↔ p ∈ op.valuePositions := by
  constructor
  · rintro ⟨labels, tokens, r, r', hregister, hother, hne⟩
    refine Decidable.of_not_not fun hp => hne (rule_congr ?_ ?_ labels tokens)
    · intro q _
      rw [hregister]
    · intro q hq
      exact hother q (ne_of_mem_of_not_mem hq hp)
  · intro hp
    have hop : op ≠ .teleport := by
      rintro rfl
      cases hp
    refine ⟨.empty, [], zeros, zerosButValue p, rfl, fun q hq => if_neg hq, fun heq => ?_⟩
    have hfails := rule_zerosButValue hp .empty ⟨.zeroed, .empty⟩
    rw [heq] at hfails
    exact rule_zeros hop _ _ hfails

/-- The standard table has a register field wherever a rule reads a register. -/
theorem field_of_register {op : Opcode} {p : Nat} (h : p ∈ op.registerPositions) :
    ∃ f, op.fields[p]? = some f ∧ f.kind = .register ∧ f.width = 5 := by
  have htable : ∀ q ∈ op.registerPositions,
      ((op.fields[q]?).map fun f => (f.kind, f.width)) = some (.register, 5) := by
    cases op <;> decide
  simpa using htable p h

theorem field_of_value {op : Opcode} {p : Nat} (h : p ∈ op.valuePositions) :
    ∃ f, op.fields[p]? = some f := by
  have htable : ∀ q ∈ op.valuePositions, (op.fields[q]?).isSome := by
    cases op <;> decide
  exact Option.isSome_iff_exists.mp (htable p h)

end Opcode

theorem Field.raw_lt (f : Field) (w : Word) : (f.raw w).toNat < 2 ^ f.width := by
  refine Nat.lt_pow_two_of_testBit _ fun i hi => ?_
  change (f.raw w).getLsbD i = false
  rw [getLsbD_raw]
  simp [Nat.not_lt.mpr hi]

namespace Operands

/-- Reads the operands that there are. `missing` stands in for one that there is not, and `outside`
for a register number that is too large. -/
def readerWith (ops : Operands) (missing : Nat → Access Word) (outside : Nat → Word → Access Nat) :
    OperandReader :=
  let value p :=
    match ops.get? p with
    | some v => pure v
    | none => missing p
  { value
    register := fun p => do
      let v ← value p
      if v.toNat < registerCount then pure v.toNat else outside p v }

/-- A missing operand counts as 0, and of a register number the low five bits. -/
def reader (ops : Operands) : OperandReader :=
  ops.readerWith (fun _ => pure 0) fun _ v => pure (v.toNat % registerCount)

theorem reader_value (ops : Operands) (p : Nat) : ops.reader.value p = pure (ops.value p) := by
  simp only [reader, readerWith, value]
  cases ops.get? p <;> rfl

theorem reader_register (ops : Operands) (p : Nat) :
    ops.reader.register p = pure (ops.register p).toNat := by
  simp only [reader, readerWith, register, value]
  cases ops.get? p with
  | none => rfl
  | some v =>
    have hmask : (v.setWidth 5).toNat = v.toNat % registerCount := BitVec.toNat_setWidth ..
    change (if v.toNat < registerCount then pure v.toNat else pure (v.toNat % registerCount) :
      Access Nat) = pure (v.setWidth 5).toNat
    rw [hmask]
    split
    · next hlt => rw [Nat.mod_eq_of_lt hlt]
    · rfl

section

variable {ops : Operands} {p : Nat} {v : Word} (h : ops.get? p = some v)
  (missing : Nat → Access Word) (outside : Nat → Word → Access Nat)

include h

theorem readerWith_value : (ops.readerWith missing outside).value p = pure v := by
  simp only [readerWith, h]

theorem readerWith_register (hv : v.toNat < registerCount) :
    (ops.readerWith missing outside).register p = pure v.toNat := by
  simp only [readerWith, h]
  exact if_pos hv

end

end Operands

/-- Read in this way the rules are those of the instructions. -/
theorem Opcode.rule_reader (op : Opcode) (ops : Operands) (tokens : List String) (labels : Labels)
    (s : Storage) :
    op.rule labels tokens ops.reader s = (Instruction.ofOperands op ops tokens).execute labels s := by
  rw [← Instruction.accesses_eq]
  have hregister := ops.reader_register
  have hvalue := ops.reader_value
  cases op <;> simp only [rule, OperandReader.binary, OperandReader.binaryImmediate,
    OperandReader.unary, OperandReader.swap, OperandReader.clear, OperandReader.increment,
    OperandReader.load, OperandReader.store, OperandReader.branch, hregister, hvalue] <;> rfl

namespace Catalog

section

variable {c : Catalog} (hc : standard = .ok c) {w pc : Word} {d : Decoded}
  (h : c.decode w pc = some d) {p : Nat}

include hc h

theorem standard_operand {f : Field} (hf : d.definition.opcode.fields[p]? = some f) :
    d.operands.get? p = some (f.extract w pc) := by
  rw [Operands.get?, (standard_decode hc h).2, Template.values, List.getElem?_map, Opcode.template,
    hf]
  rfl

theorem standard_register (hp : p ∈ d.definition.opcode.registerPositions) :
    ∃ v, d.operands.get? p = some v ∧ v.toNat < registerCount := by
  obtain ⟨f, hf, hkind, hwidth⟩ := Opcode.field_of_register hp
  refine ⟨_, standard_operand hc h hf, ?_⟩
  have hraw := f.raw_lt w
  rw [hwidth] at hraw
  rwa [Field.extract, hkind]

end

/-- With the standard catalog every operand that a rule reads is there, and each one that it reads
as a register names one. So nothing that may stand in for an operand is ever asked for. -/
theorem stand_ins_unused {c : Catalog} (hc : standard = .ok c) {w pc : Word} {d : Decoded}
    (h : c.decode w pc = some d) :
    let op := d.definition.opcode
    (∀ p, op.ReadsRegister p → ∃ v, d.operands.get? p = some v ∧ v.toNat < registerCount) ∧
    (∀ p, op.ReadsValue p → p < d.operands.size) ∧
    (∀ ops tokens labels s,
      op.rule labels tokens ops.reader s =
        (Instruction.ofOperands op ops tokens).execute labels s) ∧
    ∀ missing outside tokens labels s,
      op.rule labels tokens (d.operands.readerWith missing outside) s =
        (d.instruction tokens).execute labels s := by
  intro op
  have hvalue {p : Nat} (hp : p ∈ op.valuePositions) : ∃ v, d.operands.get? p = some v := by
    obtain ⟨f, hf⟩ := Opcode.field_of_value hp
    exact ⟨_, standard_operand hc h hf⟩
  refine ⟨fun p hp => standard_register hc h (Opcode.readsRegister_iff.mp hp), ?_,
    op.rule_reader, ?_⟩
  · intro p hp
    obtain ⟨v, hv⟩ := hvalue (Opcode.readsValue_iff.mp hp)
    exact (List.getElem?_eq_some_iff.mp hv).1
  · intro missing outside tokens labels s
    have hsame : op.rule labels tokens (d.operands.readerWith missing outside) =
        op.rule labels tokens d.operands.reader := by
      refine Opcode.rule_congr ?_ ?_ labels tokens
      · intro p hp
        obtain ⟨v, hv, hlt⟩ := standard_register hc h hp
        rw [Operands.readerWith_register hv missing outside hlt]
        exact (Operands.readerWith_register hv _ _ hlt).symm
      · intro p hp
        obtain ⟨v, hv⟩ := hvalue hp
        rw [Operands.readerWith_value hv missing outside]
        exact (Operands.readerWith_value hv _ _).symm
    rw [hsame]
    exact op.rule_reader d.operands tokens labels s

/-- A load reads two registers and an offset, and would fault if one of them were missing. -/
theorem conjure_stand_ins_unused :
    ∃ c d, standard = .ok c ∧ c.decode 0x811CFFFC 0x00400000 = some d ∧
      d.definition.opcode = .conjure ∧
      (∃ v, d.operands.get? 1 = some v ∧ v.toNat < registerCount) ∧ 2 < d.operands.size ∧
      ∀ tokens labels s,
        Opcode.conjure.rule labels tokens
          (d.operands.readerWith (fun _ => .fail .missingLabel) fun _ _ => .fail .missingLabel) s =
          (d.instruction tokens).execute labels s := by
  obtain ⟨c, hc⟩ := standard_ok
  have hw : Opcode.conjure.template.Matches 0x811CFFFC := by decide
  obtain ⟨d, hd, hop⟩ := standard_decodes hc hw 0x00400000
  obtain ⟨hregister, hvalue, _, hrule⟩ := stand_ins_unused hc hd
  rw [hop] at hregister hvalue hrule
  exact ⟨c, d, hc, hd, hop, hregister 1 (Opcode.readsRegister_iff.mpr (by decide)),
    hvalue 2 (Opcode.readsValue_iff.mpr (by decide)), hrule _ _⟩

end Catalog

end MagicAssembly
