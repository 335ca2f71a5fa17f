import MagicAssembly.Word

namespace MagicAssembly

def maxOperands : Nat := 3

/-- Operand values in the order in which a template declares their fields. -/
structure Operands where
  values : List Word
  length_le : values.length ≤ maxOperands
  deriving DecidableEq

namespace Operands

def ofList? (values : List Word) : Option Operands :=
  if h : values.length ≤ maxOperands then some ⟨values, h⟩ else none

/-- Values past the third are dropped. -/
def ofFirst (values : List Word) : Operands :=
  ⟨values.take maxOperands, List.length_take_le ..⟩

def get? (ops : Operands) (position : Nat) : Option Word :=
  ops.values[position]?

def size (ops : Operands) : Nat :=
  ops.values.length

end Operands

end MagicAssembly
