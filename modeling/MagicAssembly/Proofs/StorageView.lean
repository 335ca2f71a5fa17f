import MagicAssembly.Instruction.Effect

namespace MagicAssembly

/-- The storage as two functions, with nothing said of how it is kept. -/
structure View where
  register : Register → Word
  memory : Word → Option Word

namespace View

/-- Register 0 takes no value. -/
def assign (v : View) (r : Register) (value : Word) : View :=
  { v with register := fun q => if q = r ∧ r ≠ 0 then value else v.register q }

def store (v : View) (address value : Word) : View :=
  { v with memory := fun a => if a = address then some value else v.memory a }

/-- A word never stored is 0. -/
def load (v : View) (address : Word) : Word :=
  (v.memory address).getD 0

end View

/-- Why a word cannot be loaded. -/
def loadFault? (address : Nat) : Option AddressFault :=
  if address % 4 ≠ 0 then some .unaligned
  else if 0x00400000 ≤ address ∧ address < 0x80000000 then none
  else some .outOfRange

/-- Why a word cannot be stored. -/
def storeFault? (address : Nat) : Option AddressFault :=
  if address % 4 ≠ 0 then some .unaligned
  else if 0x10000000 ≤ address ∧ address < 0x80000000 then none
  else if 0x00400000 ≤ address ∧ address < 0x10000000 then some .readOnly
  else some .outOfRange

namespace View

/-- The register takes the word at an address that may be read. -/
def loadTo (v : View) (r : Register) (address : Word) : Except Fault (View × Control) :=
  match loadFault? address.toNat with
  | some cause => .error (.address ⟨address, cause⟩)
  | none => .ok (v.assign r (v.load address), .sequential)

/-- An address that may be written takes the value of the register. -/
def storeFrom (v : View) (r : Register) (address : Word) : Except Fault (View × Control) :=
  match storeFault? address.toNat with
  | some cause => .error (.address ⟨address, cause⟩)
  | none => .ok (v.store address (v.register r), .sequential)

end View

theorem Region.ofAddress_eq (address : Word) :
    Region.ofAddress address =
      if address.toNat < 0x00400000 then .reserved
      else if address.toNat < 0x10000000 then .text
      else if address.toNat < 0x80000000 then .data
      else .kernel := by
  simp only [ofAddress, last, BitVec.le_def]
  grind

theorem checkRead_eq (address : Word) :
    checkRead address =
      match loadFault? address.toNat with
      | some cause => .error ⟨address, cause⟩
      | none => .ok () := by
  unfold checkRead checkAligned Aligned wordBytes loadFault?
  rw [Region.ofAddress_eq]
  simp only [bind, Except.bind]
  grind

theorem checkWrite_eq (address : Word) :
    checkWrite address =
      match storeFault? address.toNat with
      | some cause => .error ⟨address, cause⟩
      | none => .ok () := by
  unfold checkWrite checkAligned Aligned wordBytes storeFault?
  rw [Region.ofAddress_eq]
  simp only [bind, Except.bind]
  grind

theorem checkRead_eq_ok_iff {address : Word} :
    checkRead address = .ok () ↔
      address.toNat % 4 = 0 ∧ 0x00400000 ≤ address.toNat ∧ address.toNat < 0x80000000 := by
  rw [checkRead_eq]
  unfold loadFault?
  grind

theorem checkWrite_eq_ok_iff {address : Word} :
    checkWrite address = .ok () ↔
      address.toNat % 4 = 0 ∧ 0x10000000 ≤ address.toNat ∧ address.toNat < 0x80000000 := by
  rw [checkWrite_eq]
  unfold storeFault?
  grind

theorem Region.contains_iff {r : Region} {address : Word} :
    r.Contains address ↔ r.first.toNat ≤ address.toNat ∧ address.toNat ≤ r.last.toNat :=
  and_congr BitVec.le_def BitVec.le_def

/-- Whole words of text and data may be read. -/
theorem checkRead_eq_ok_iff_region {address : Word} :
    checkRead address = .ok () ↔
      Aligned address ∧ (Region.text.Contains address ∨ Region.data.Contains address) := by
  rw [checkRead_eq_ok_iff]
  simp only [Aligned, wordBytes, Region.contains_iff, Region.first, Region.last, BitVec.reduceToNat]
  omega

/-- Whole words of data may be written. -/
theorem checkWrite_eq_ok_iff_region {address : Word} :
    checkWrite address = .ok () ↔ Aligned address ∧ Region.data.Contains address := by
  rw [checkWrite_eq_ok_iff]
  simp only [Aligned, wordBytes, Region.contains_iff, Region.first, Region.last, BitVec.reduceToNat]
  omega

theorem readable_of_writable {address : Word} (h : checkWrite address = .ok ()) :
    checkRead address = .ok () := by
  obtain ⟨aligned, hdata⟩ := checkWrite_eq_ok_iff_region.mp h
  exact checkRead_eq_ok_iff_region.mpr ⟨aligned, .inr hdata⟩

theorem Registers.get_set (r : Registers) (i j : Nat) (value : Word) :
    (r.set i value).get j = if i = j ∧ 0 < j ∧ j < registerCount then value else r.get j := by
  cases j with
  | zero => simp [get]
  | succ j =>
    cases i with
    | zero => simp [set]
    | succ i =>
      simp only [get, set, Vector.getElem?_setIfInBounds, registerCount]
      grind

theorem Memory.find_put (m : Memory) (address value a : Word) :
    (m.put address value).find? a = if a = address then some value else m.find? a := by
  simp only [find?, put, Std.ExtHashMap.getElem?_insert, beq_iff_eq, eq_comm (a := a)]

theorem Memory.find_empty (a : Word) : Memory.empty.find? a = none :=
  Std.ExtHashMap.getElem?_empty

theorem Memory.size_empty : Memory.empty.size = 0 :=
  Std.ExtHashMap.size_empty

theorem Memory.read_eq_ok_iff {m : Memory} {address value : Word} :
    m.read address = .ok value ↔ checkRead address = .ok () ∧ m.get address = value := by
  unfold read
  cases checkRead address <;> simp [Except.map]

theorem Memory.read_of_checkRead {address : Word} (h : checkRead address = .ok ()) (m : Memory) :
    m.read address = .ok ((m.find? address).getD 0) :=
  read_eq_ok_iff.mpr ⟨h, rfl⟩

theorem Memory.read_empty {address : Word} (h : checkRead address = .ok ()) :
    Memory.empty.read address = .ok 0 := by
  rw [read_of_checkRead h, find_empty]
  rfl

namespace Storage

theorem get_of_registers {s s' : Storage} (h : s'.registers = s.registers) (r : Register) :
    s'.get r = s.get r := by
  rw [get, h, get]

theorem commit_registers {s s' : Storage} (h : s'.registers = s.registers)
    (writes : List Write) : (s'.commit writes).registers = (s.commit writes).registers := by
  induction writes generalizing s s' with
  | nil => exact h
  | cons w writes ih =>
    apply ih
    cases w with
    | register r value => exact congrArg (Registers.set · r.toNat value) h
    | memory address value => exact h

def view (s : Storage) : View where
  register r := s.get r
  memory := s.memory.find?

@[simp] theorem get_eq (s : Storage) (r : Register) : s.get r = s.view.register r :=
  rfl

theorem register_zero (s : Storage) : s.view.register 0 = 0 :=
  rfl

@[simp] theorem view_write_register (s : Storage) (r : Register) (value : Word) :
    (s.write (.register r value)).view = s.view.assign r value := by
  obtain ⟨registers, memory⟩ := s
  simp only [write, view, View.assign, get, View.mk.injEq, and_true]
  funext q
  have hq : q.toNat < registerCount := q.isLt
  have hzero : q = 0 ↔ q.toNat = 0 := BitVec.toNat_inj.symm
  have heq : q = r ↔ r.toNat = q.toNat := BitVec.toNat_inj.symm.trans eq_comm
  rw [Registers.get_set]
  grind

@[simp] theorem view_write_memory (s : Storage) (address value : Word) :
    (s.write (.memory address value)).view = s.view.store address value := by
  obtain ⟨registers, memory⟩ := s
  simp only [write, view, View.store, View.mk.injEq]
  exact ⟨rfl, funext (memory.find_put address value)⟩

@[simp] theorem memory_get (s : Storage) (address : Word) :
    s.memory.get address = s.view.load address :=
  rfl

/-- The two functions are all that there is. -/
theorem view_injective {s t : Storage} (h : s.view = t.view) : s = t := by
  obtain ⟨⟨cells⟩, ⟨stored⟩⟩ := s
  obtain ⟨⟨cells'⟩, ⟨stored'⟩⟩ := t
  obtain ⟨hr, hm⟩ := View.mk.inj h
  have hcells : cells = cells' := by
    apply Vector.ext
    intro i hi
    have hreg := congrFun hr (BitVec.ofNat 5 (i + 1))
    have hn : (BitVec.ofNat 5 (i + 1)).toNat = i + 1 := by
      rw [BitVec.toNat_ofNat]
      omega
    simpa [get, hn, Registers.get, hi] using hreg
  have hstored : stored = stored' := Std.ExtHashMap.ext_getElem? (congrFun hm)
  rw [hcells, hstored]

end Storage

namespace Instruction

/-- What the effect of an instruction leaves to be seen. -/
def transition (labels : Labels) (s : Storage) (i : Instruction) :
    Except Fault (View × Control) :=
  (i.effect labels s).map fun e => ((s.commit e.writes).view, e.control)

section

variable (labels : Labels) (s : Storage)

@[simp] theorem transition_binary (op : BinaryOp) (rd rs rt : Register) :
    transition labels s (.binary op rd rs rt) =
      (op.apply (s.get rs) (s.get rt)).map fun v => (s.view.assign rd v, .sequential) := by
  simp only [transition, effect]
  cases op.apply (s.get rs) (s.get rt) <;> simp [Except.map, Storage.commit]

@[simp] theorem transition_binaryImmediate (op : BinaryOp) (rd rs : Register) (immediate : Word) :
    transition labels s (.binaryImmediate op rd rs immediate) =
      (op.apply (s.get rs) immediate).map fun v => (s.view.assign rd v, .sequential) := by
  simp only [transition, effect]
  cases op.apply (s.get rs) immediate <;> simp [Except.map, Storage.commit]

@[simp] theorem transition_unary (op : UnaryOp) (rd rs : Register) :
    transition labels s (.unary op rd rs) =
      .ok (s.view.assign rd (op.apply (s.get rs)), .sequential) := by
  simp [transition, effect, Except.map, Storage.commit]

@[simp] theorem transition_swap (rs rt : Register) :
    transition labels s (.swap rs rt) =
      .ok ((s.view.assign rs (s.get rt)).assign rt (s.get rs), .sequential) := by
  simp [transition, effect, Except.map, Storage.commit]

@[simp] theorem transition_clear (rd : Register) :
    transition labels s (.clear rd) = .ok (s.view.assign rd 0, .sequential) := by
  simp [transition, effect, Except.map, Storage.commit]

@[simp] theorem transition_increment (rs : Register) :
    transition labels s (.increment rs) =
      .ok (s.view.assign rs (s.get rs + 1), .sequential) := by
  simp [transition, effect, Except.map, Storage.commit]

@[simp] theorem transition_load (rt base : Register) (offset : Word) :
    transition labels s (.load rt base offset) =
      s.view.loadTo rt (s.get base + offset) := by
  simp only [transition, effect, Memory.read, effectiveAddress, checkRead_eq, View.loadTo]
  cases loadFault? (s.get base + offset).toNat <;> simp [Except.map, Storage.commit]

@[simp] theorem transition_store (rt base : Register) (offset : Word) :
    transition labels s (.store rt base offset) =
      s.view.storeFrom rt (s.get base + offset) := by
  simp only [transition, effect, effectiveAddress, checkWrite_eq, View.storeFrom]
  cases storeFault? (s.get base + offset).toNat <;> simp [Except.map, Storage.commit]

@[simp] theorem transition_branch (whenEqual : Bool) (rs rt : Register) (target : Word) :
    transition labels s (.branch whenEqual rs rt target) =
      .ok (s.view, if (s.get rs == s.get rt) = whenEqual then .transfer target else .sequential) :=
  rfl

theorem transition_jump (tokens : List String) :
    transition labels s (.jump (labelToken? tokens)) =
      match tokens[1]? with
      | none | some "" => .error .missingLabel
      | some name =>
        match labels.get? .file name, labels.get? .global name with
        | some label, _ | none, some label => .ok (s.view, .transfer label.address)
        | none, none => .error (.unresolved name) := by
  unfold labelToken?
  cases tokens[1]? with
  | none => rfl
  | some name =>
    by_cases hname : name = ""
    · subst hname
      rfl
    · simp only [Option.filter_some, ne_eq, hname, not_false_eq_true, decide_true, if_true,
        transition, effect, Labels.resolve?]
      cases labels.get? .file name <;> cases labels.get? .global name <;> rfl

end

end Instruction

end MagicAssembly
