import MagicAssembly.Proofs.Fetch
import MagicAssembly.Proofs.StandardTable
import MagicAssembly.Proofs.StepCases
import MagicAssembly.Proofs.StorageView

namespace MagicAssembly

namespace Word

/-- The word that stands for an integer, up to multiples of 2 ^ 32. -/
def wrap (x : Int) : Word :=
  BitVec.ofInt 32 x

def registerAt (w : Word) (low : Nat) : Register :=
  w.extractLsb' low 5

/-- The low half of the word, signed. -/
def immediate (w : Word) : Int :=
  (w.setWidth 16).toInt

/-- Where the branch in `w` goes. -/
def branchTarget (w pc : Word) : Word :=
  wrap (pc.toNat + 4 + 4 * w.immediate)

theorem toInt_wrap (x : Int) : (wrap x).toInt = x.bmod 0x100000000 :=
  BitVec.toInt_ofInt ..

@[simp] theorem wrap_toInt (x : Word) : wrap x.toInt = x :=
  BitVec.ofInt_toInt

@[simp] theorem wrap_zero : wrap 0 = 0 :=
  rfl

@[simp] theorem wrap_one : wrap 1 = 1 :=
  rfl

@[simp] theorem wrap_add (x y : Int) : wrap (x + y) = wrap x + wrap y :=
  BitVec.ofInt_add ..

@[simp] theorem wrap_mul (x y : Int) : wrap (x * y) = wrap x * wrap y :=
  BitVec.ofInt_mul ..

@[simp] theorem wrap_sub (x y : Int) : wrap (x - y) = wrap x - wrap y := by
  rw [Int.sub_eq_add_neg, wrap_add, BitVec.sub_eq_add_neg, wrap, wrap, wrap, BitVec.ofInt_neg]

end Word

theorem BinaryOp.divide_apply (x y : Word) :
    BinaryOp.divide.apply x y =
      if y.toInt = 0 then .error .divisionByZero else .ok (.wrap (x.toInt.tdiv y.toInt)) := by
  have hzero : y = 0 ↔ y.toInt = 0 := BitVec.toInt_inj.symm
  have hquot : x.sdiv y = Word.wrap (x.toInt.tdiv y.toInt) := by
    apply BitVec.eq_of_toInt_eq
    rw [BitVec.toInt_sdiv]
    exact (Word.toInt_wrap _).symm
  simp only [apply, hzero, hquot]

theorem UnaryOp.clamp_apply (x : Word) : UnaryOp.clamp.apply x = .wrap (max x.toInt 0) := by
  by_cases h : x.toInt < 0
  · rw [Int.max_eq_right (Int.le_of_lt h)]
    exact if_pos h
  · rw [Int.max_eq_left (Int.not_lt.mp h), Word.wrap_toInt]
    exact if_neg h

/-- The register takes the integer, wrapped. -/
def View.result (v : View) (r : Register) (x : Int) : Except Fault (View × Control) :=
  .ok (v.assign r (.wrap x), .sequential)

/-- What the instruction does whose word is `w`, told with sums, products and quotients of
integers. -/
def Opcode.meaning (w pc : Word) (tokens : List String) (labels : Labels) (v : View)
    (op : Opcode) : Except Fault (View × Control) :=
  let a := w.registerAt 21
  let b := w.registerAt 16
  let c := w.registerAt 11
  let signed (r : Register) : Int := (v.register r).toInt
  let address := Word.wrap (signed b + w.immediate)
  match op with
  | .fuse => v.result a (signed b + signed c)
  | .dispel => v.result a (signed b - signed c)
  | .alchemize => v.result a (signed b * signed c)
  | .dissipate =>
    if signed c = 0 then .error .divisionByZero else v.result a ((signed b).tdiv (signed c))
  | .bind => .ok (v.assign a (v.register b &&& v.register c), .sequential)
  | .sever => .ok (v.assign a (v.register b ||| v.register c), .sequential)
  | .veil => .ok (v.assign a (v.register b ^^^ v.register c), .sequential)
  | .channel => v.result a (signed b + w.immediate)
  | .amplify => v.result a (signed b * w.immediate)
  | .cancel => v.result a 0
  | .transmute => v.result a (signed b)
  | .clone => v.result a (signed b + signed b)
  | .barrier => v.result a (max (signed b) 0)
  | .charge => v.result b (signed b + 1)
  | .swap => .ok ((v.assign b (v.register c)).assign c (v.register b), .sequential)
  | .conjure => v.loadTo a address
  | .implant => v.storeFrom a address
  | .ward =>
    .ok (v, if v.register a = v.register b then .transfer (w.branchTarget pc) else .sequential)
  | .curse =>
    .ok (v, if v.register a ≠ v.register b then .transfer (w.branchTarget pc) else .sequential)
  | .teleport =>
    match tokens[1]? with
    | none | some "" => .error .missingLabel
    | some name =>
      match labels.get? .file name, labels.get? .global name with
      | some label, _ | none, some label => .ok (v, .transfer label.address)
      | none, none => .error (.unresolved name)

namespace Field

@[simp] theorem extract_register (low : Nat) (w pc : Word) :
    (extract ⟨.register, low, 5⟩ w pc).setWidth 5 = w.registerAt low := by
  apply BitVec.eq_of_getLsbD_eq
  intro i hi
  simp only [extract, FieldKind.operand, Word.registerAt, BitVec.getLsbD_setWidth, getLsbD_raw,
    BitVec.getLsbD_extractLsb']
  grind

theorem raw_half (kind : FieldKind) (w : Word) :
    (raw ⟨kind, 0, 16⟩ w).signExtend16 = .wrap w.immediate := by
  change _ = (w.setWidth 16).signExtend 32
  apply BitVec.eq_of_getLsbD_eq
  intro i hi
  change _ = w.signExtend16.getLsbD i
  simp only [Word.getLsbD_signExtend16, getLsbD_raw]
  grind

@[simp] theorem extract_immediate (w pc : Word) :
    extract ⟨.immediate, 0, 16⟩ w pc = .wrap w.immediate :=
  raw_half .immediate w

@[simp] theorem extract_branchOffset (w pc : Word) :
    extract ⟨.branchOffset, 0, 16⟩ w pc = w.branchTarget pc := by
  have hpc : Word.wrap pc.toNat = pc := by
    rw [Word.wrap, BitVec.ofInt_natCast, BitVec.ofNat_toNat, BitVec.setWidth_eq]
  have hfour : Word.wrap 4 = 4 := rfl
  simp only [extract, FieldKind.operand]
  rw [raw_half, Word.branchTarget, Word.wrap_add, Word.wrap_add, Word.wrap_mul, hpc, hfour,
    BitVec.shiftLeft_eq_mul_twoPow, BitVec.mul_comm]
  rfl

end Field

theorem Operands.value_eq {ops : Operands} {values : List Word} (h : ops.values = values)
    (position : Nat) : ops.value position = values[position]?.getD 0 := by
  rw [value, get?, h]

theorem Operands.register_eq {ops : Operands} {values : List Word} (h : ops.values = values)
    (position : Nat) : ops.register position = (values[position]?.getD 0).setWidth 5 := by
  rw [register, value_eq h]

/-- Reading its operands off the word and carrying it out is what an instruction means. -/
theorem Opcode.transition_eq_meaning {op : Opcode} {ops : Operands} {w pc : Word}
    (h : ops.values = op.template.values w pc) (tokens : List String) (labels : Labels)
    (s : Storage) :
    (Instruction.ofOperands op ops tokens).transition labels s =
      op.meaning w pc tokens labels s.view := by
  have register := Operands.register_eq h
  have value := Operands.value_eq h
  simp only [template, Template.values] at register value
  simp only [Instruction.ofOperands]
  cases op with
  | fuse | dispel | alchemize | bind | sever | veil =>
    simp [instruction, register, fields, meaning, View.result, BinaryOp.apply, Except.map]
  | dissipate =>
    by_cases hzero : (s.view.register (w.registerAt 11)).toInt = 0 <;>
      simp [instruction, register, fields, meaning, View.result, BinaryOp.divide_apply, Except.map,
        hzero]
  | channel | amplify =>
    simp [instruction, register, value, fields, meaning, View.result, BinaryOp.apply, Except.map]
  | transmute | clone =>
    simp [instruction, register, fields, meaning, View.result, UnaryOp.apply]
  | barrier =>
    simp [instruction, register, fields, meaning, View.result, UnaryOp.clamp_apply]
  | cancel | charge | swap =>
    simp [instruction, register, fields, meaning, View.result]
  | conjure | implant | ward | curse =>
    simp [instruction, register, value, fields, meaning]
  | teleport => exact Instruction.transition_jump labels s tokens

namespace Machine

/-- An instruction that goes on to the next word, a branch past a word, and a jump back. -/
def roundTrip : Program :=
  (((Program.empty.push 0x6100FFFF "chnl $t0,$zero,-1").push 0x10000001
    "ward $zero,$zero,last").push 0x00000000 "").push 0x08000000 "tp first"

/-- The first line leaves -1 in its register. -/
theorem roundTrip_channel (pc : Word) (tokens : List String) (labels : Labels) (s : Storage) :
    Opcode.meaning 0x6100FFFF pc tokens labels s.view .channel =
      .ok (s.view.assign 8 0xFFFFFFFF, .sequential) := by
  have ha : Word.registerAt 0x6100FFFF 21 = 8 := by decide
  have hb : Word.registerAt 0x6100FFFF 16 = 0 := by decide
  have hsum : Word.wrap (BitVec.toInt (0 : Word) + Word.immediate 0x6100FFFF) = 0xFFFFFFFF := by
    decide
  simp only [Opcode.meaning, ha, hb, View.result, Storage.register_zero, hsum]

/-- The branch compares register 0 with itself and is taken. -/
theorem roundTrip_ward (tokens : List String) (labels : Labels) (v : View) :
    Opcode.meaning 0x10000001 0x00400004 tokens labels v .ward =
      .ok (v, .transfer 0x0040000C) := by
  have ha : Word.registerAt 0x10000001 21 = 0 := by decide
  have hb : Word.registerAt 0x10000001 16 = 0 := by decide
  have htarget : Word.branchTarget 0x10000001 0x00400004 = 0x0040000C := by decide
  simp only [Opcode.meaning, ha, hb, htarget, if_true]

theorem roundTrip_teleport {labels : Labels} {label : Label}
    (h : labels.get? .file "first" = some label) (pc : Word) (v : View) :
    Opcode.meaning 0x08000000 pc ["tp", "first"] labels v .teleport =
      .ok (v, .transfer label.address) := by
  simp [Opcode.meaning, h]

/-- One step with the standard catalog: the fields of the word at `pc` say which instruction it is
and on what it works, and the step does what that instruction means. It goes on to the next word or
to the target of a transfer. -/
theorem step_meaning {m : Machine} (hc : Catalog.standard = .ok m.catalog)
    (status : m.status = .running) (budget : m.steps < m.config.stepBudget)
    {i : Nat} (address : m.statementAddress? i = some m.pc) {s : Statement}
    (statement : m.program.statements[i]? = some s) {d : Decoded}
    (decode : m.catalog.decode s.word m.pc = some d) :
    d.definition.opcode.template.Matches s.word ∧
      match d.definition.opcode.meaning s.word m.pc s.tokens m.program.labels m.storage.view with
      | .ok (view, .sequential) =>
        m.step.outcome = .retired .sequential ∧ ∃ storage : Storage, storage.view = view ∧
          m.step.machine = { m with storage, pc := m.pc + 4, steps := m.steps + 1 }
      | .ok (view, .transfer target) =>
        m.step.outcome = .retired (.transfer target) ∧ ∃ storage : Storage, storage.view = view ∧
          m.step.machine = { m with storage, pc := target, steps := m.steps + 1 }
      | .error fault =>
        m.step.outcome = .fault fault.kind ∧
          m.step.machine = { m with status := .faulted ⟨d.describe s.tokens, m.pc, fault⟩ } := by
  obtain ⟨hw, hops⟩ := Catalog.standard_decode hc decode
  refine ⟨hw, ?_⟩
  rw [← Opcode.transition_eq_meaning hops]
  change match (d.instruction s.tokens).transition m.program.labels m.storage with
    | .ok (view, .sequential) => _
    | .ok (view, .transfer target) => _
    | .error fault => _
  have hfetch : m.fetch = .ok (some s) := fetch_eq_some_iff.mpr ⟨i, address, statement⟩
  rw [step_eq_perform status budget hfetch, perform_eq, decode]
  dsimp only [Instruction.transition]
  cases (d.instruction s.tokens).effect m.program.labels m.storage with
  | error fault => exact ⟨rfl, rfl⟩
  | ok e =>
    obtain ⟨writes, control⟩ := e
    cases control with
    | sequential => exact ⟨rfl, _, rfl, rfl⟩
    | transfer target => exact ⟨rfl, _, rfl, rfl⟩

theorem step_roundTrip :
    ∃ c program, Catalog.standard = .ok c ∧
      roundTrip.define .file "first" ⟨0x00400000, 1⟩ = .ok program ∧
      let m := (create {} c).load program
      let n := m.step.machine
      let k := n.step.machine
      (m.step.outcome = .retired .sequential ∧ ∃ storage : Storage,
        storage.view = m.storage.view.assign 8 0xFFFFFFFF ∧
          n = { m with storage, pc := 0x00400004, steps := 1 }) ∧
      (n.step.outcome = .retired (.transfer 0x0040000C) ∧ ∃ storage : Storage,
        storage.view = n.storage.view ∧ k = { n with storage, pc := 0x0040000C, steps := 2 }) ∧
      (k.step.outcome = .retired (.transfer 0x00400000) ∧ ∃ storage : Storage,
        storage.view = k.storage.view ∧
          k.step.machine = { k with storage, pc := 0x00400000, steps := 3 }) := by
  obtain ⟨c, hc⟩ := Catalog.standard_ok
  have hdefine := Labels.define_of_new (Labels.get_empty .file "first") ⟨0x00400000, 1⟩
  have hfirst := Labels.get_define hdefine .file "first"
  generalize (⟨_⟩ : Labels) = labels at hdefine hfirst
  refine ⟨c, { roundTrip with labels }, hc, congrArg (Except.map _) hdefine, ?_⟩
  intro m n k
  have hbudget : 0 < defaultStepBudget ∧ 1 < defaultStepBudget ∧ 2 < defaultStepBudget := by decide
  have hlabel : m.program.labels.get? .file "first" = some ⟨0x00400000, 1⟩ := hfirst
  have hchannel : Opcode.channel.template.Matches 0x6100FFFF := by decide
  obtain ⟨d, hd, hop⟩ := Catalog.standard_decodes hc hchannel 0x00400000
  have hm := (step_meaning (m := m) (i := 0) (s := ⟨0x6100FFFF, _⟩) hc rfl hbudget.1 rfl rfl hd).2
  simp only [hop, roundTrip_channel] at hm
  refine ⟨hm, ?_⟩
  obtain ⟨_, storage, _, hn⟩ := hm
  have hward : Opcode.ward.template.Matches 0x10000001 := by decide
  obtain ⟨d, hd, hop⟩ := Catalog.standard_decodes hc hward 0x00400004
  have hstep := (step_meaning (m := { m with storage, pc := 0x00400004, steps := 1 }) (i := 1)
    (s := ⟨0x10000001, _⟩) hc rfl hbudget.2.1 rfl rfl hd).2
  simp only [hop, roundTrip_ward] at hstep
  change n = { m with storage, pc := 0x00400004, steps := 1 } at hn
  dsimp only [k]
  rw [hn]
  refine ⟨hstep, ?_⟩
  obtain ⟨_, storage', _, hk⟩ := hstep
  have hteleport : Opcode.teleport.template.Matches 0x08000000 := by decide
  obtain ⟨d, hd, hop⟩ := Catalog.standard_decodes hc hteleport 0x0040000C
  have hlast := (step_meaning (m := { m with storage := storage', pc := 0x0040000C, steps := 2 })
    (i := 3) (s := ⟨0x08000000, ["tp", "first"]⟩) hc rfl hbudget.2.2 rfl rfl hd).2
  simp only [hop, roundTrip_teleport hlabel] at hlast
  rw [hk]
  exact hlast

end Machine

end MagicAssembly
