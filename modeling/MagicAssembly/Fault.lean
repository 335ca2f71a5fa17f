import MagicAssembly.Memory.Region

namespace MagicAssembly

/-- Why an instruction cannot be carried out. -/
inductive Fault
  | divisionByZero
  | address (error : AddressError)
  | missingLabel
  | unresolved (label : String)
  | illegalEncoding (word : Word)
  deriving DecidableEq

inductive FaultKind
  | arithmetic
  | memory
  | symbol
  | decode
  deriving DecidableEq

namespace Fault

def message : Fault → String
  | .divisionByZero => "division by zero"
  | .address error => "address error: " ++ error.message
  | .missingLabel => "missing label operand"
  | .unresolved label => "symbol \"" ++ label ++ "\" not found in symbol table"
  | .illegalEncoding word => "illegal instruction encoding " ++ Word.hex word

def kind : Fault → FaultKind
  | .divisionByZero => .arithmetic
  | .address _ => .memory
  | .missingLabel | .unresolved _ => .symbol
  | .illegalEncoding _ => .decode

def address? : Fault → Option Word
  | .address error => some error.address
  | _ => none

end Fault

/-- A fault with the text and the address of the instruction that raised it. -/
structure ExecutionError where
  instruction : String
  address : Word
  fault : Fault
  deriving DecidableEq

def ExecutionError.message (e : ExecutionError) : String :=
  e.instruction ++ " at " ++ Word.hex e.address ++ ": " ++ e.fault.message

end MagicAssembly
