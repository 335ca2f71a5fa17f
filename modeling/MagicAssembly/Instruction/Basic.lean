import MagicAssembly.Instruction.Operation
import MagicAssembly.Opcode
import MagicAssembly.Operands
import MagicAssembly.Registers.Basic

namespace MagicAssembly

inductive Instruction
  | binary (op : BinaryOp) (rd rs rt : Register)
  | binaryImmediate (op : BinaryOp) (rd rs : Register) (immediate : Word)
  | unary (op : UnaryOp) (rd rs : Register)
  | swap (rs rt : Register)
  | clear (rd : Register)
  | increment (rs : Register)
  | load (rt base : Register) (offset : Word)
  | store (rt base : Register) (offset : Word)
  /-- Taken if the registers are equal, or if they differ. -/
  | branch (whenEqual : Bool) (rs rt : Register) (target : Word)
  | jump (label : Option String)
  deriving DecidableEq

/-- Which operand each part of an instruction is read from. A jump has none: it goes to a label of
the source and not to the address that its word holds. -/
def Opcode.instruction (register : Nat → Register) (value : Nat → Word) (label : Option String) :
    Opcode → Instruction
  | .fuse => .binary .add (register 0) (register 1) (register 2)
  | .dispel => .binary .subtract (register 0) (register 1) (register 2)
  | .alchemize => .binary .multiply (register 0) (register 1) (register 2)
  | .dissipate => .binary .divide (register 0) (register 1) (register 2)
  | .bind => .binary .and (register 0) (register 1) (register 2)
  | .sever => .binary .or (register 0) (register 1) (register 2)
  | .veil => .binary .xor (register 0) (register 1) (register 2)
  | .conjure => .load (register 0) (register 1) (value 2)
  | .implant => .store (register 0) (register 1) (value 2)
  | .channel => .binaryImmediate .add (register 0) (register 1) (value 2)
  | .amplify => .binaryImmediate .multiply (register 0) (register 1) (value 2)
  | .cancel => .clear (register 0)
  | .ward => .branch true (register 0) (register 1) (value 2)
  | .curse => .branch false (register 0) (register 1) (value 2)
  | .teleport => .jump label
  | .transmute => .unary .copy (register 0) (register 1)
  | .swap => .swap (register 0) (register 1)
  | .clone => .unary .double (register 0) (register 1)
  | .barrier => .unary .clamp (register 0) (register 1)
  | .charge => .increment (register 0)

namespace Operands

/-- A missing operand counts as 0. -/
def value (ops : Operands) (position : Nat) : Word :=
  (ops.get? position).getD 0

/-- The low five bits, also of a value that names no register. -/
def register (ops : Operands) (position : Nat) : Register :=
  (ops.value position).setWidth 5

end Operands

/-- The token after the mnemonic. -/
def labelToken? (tokens : List String) : Option String :=
  tokens[1]?.filter (· ≠ "")

def Instruction.ofOperands (opcode : Opcode) (ops : Operands) (tokens : List String) :
    Instruction :=
  opcode.instruction ops.register ops.value (labelToken? tokens)

end MagicAssembly
