import MagicAssembly.Instruction.Basic
import MagicAssembly.Labels
import MagicAssembly.Memory.Basic

namespace MagicAssembly

/-- Where the program goes on. -/
inductive Control
  | sequential
  | transfer (target : Word)
  deriving DecidableEq

def Control.next (pc : Word) : Control → Word
  | .sequential => pc + 4
  | .transfer target => target

/-- All that an instruction can change. -/
structure Storage where
  registers : Registers
  memory : Memory

inductive Write
  | register (register : Register) (value : Word)
  | memory (address value : Word)
  deriving DecidableEq

/-- What an instruction does once nothing can go wrong any more. Writes happen in order. -/
structure Effect where
  writes : List Write
  control : Control
  deriving DecidableEq

def effectiveAddress (base offset : Word) : Word :=
  base + offset

namespace Storage

def get (s : Storage) (r : Register) : Word :=
  s.registers.get r.toNat

def write : Storage → Write → Storage
  | ⟨registers, memory⟩, .register r value => ⟨registers.set r.toNat value, memory⟩
  | ⟨registers, memory⟩, .memory address value => ⟨registers, memory.put address value⟩

def commit (s : Storage) (writes : List Write) : Storage :=
  writes.foldl write s

end Storage

namespace Instruction

/-- Every source is read, and every check made, before anything is written. -/
def effect (labels : Labels) (s : Storage) : Instruction → Except Fault Effect
  | .binary op rd rs rt =>
    (op.apply (s.get rs) (s.get rt)).map fun v => ⟨[.register rd v], .sequential⟩
  | .binaryImmediate op rd rs immediate =>
    (op.apply (s.get rs) immediate).map fun v => ⟨[.register rd v], .sequential⟩
  | .unary op rd rs => .ok ⟨[.register rd (op.apply (s.get rs))], .sequential⟩
  | .swap rs rt => .ok ⟨[.register rs (s.get rt), .register rt (s.get rs)], .sequential⟩
  | .clear rd => .ok ⟨[.register rd 0], .sequential⟩
  | .increment rs => .ok ⟨[.register rs (s.get rs + 1)], .sequential⟩
  | .load rt base offset =>
    match s.memory.read (effectiveAddress (s.get base) offset) with
    | .error e => .error (.address e)
    | .ok v => .ok ⟨[.register rt v], .sequential⟩
  | .store rt base offset =>
    let address := effectiveAddress (s.get base) offset
    match checkWrite address with
    | .error e => .error (.address e)
    | .ok () => .ok ⟨[.memory address (s.get rt)], .sequential⟩
  | .branch whenEqual rs rt target =>
    .ok ⟨[], if (s.get rs == s.get rt) = whenEqual then .transfer target else .sequential⟩
  | .jump none => .error .missingLabel
  | .jump (some label) =>
    match labels.resolve? label with
    | none => .error (.unresolved label)
    | some target => .ok ⟨[], .transfer target⟩

/-- A fault leaves the storage as it was. -/
def execute (labels : Labels) (s : Storage) (i : Instruction) : Except Fault Control × Storage :=
  match i.effect labels s with
  | .error fault => (.error fault, s)
  | .ok e => (.ok e.control, s.commit e.writes)

end Instruction

end MagicAssembly
