import MagicAssembly.Fault

namespace MagicAssembly

inductive BinaryOp
  | add
  | subtract
  | multiply
  | divide
  | and
  | or
  | xor
  deriving DecidableEq

/-- Results wrap to a word; quotients are rounded toward zero. -/
def BinaryOp.apply (lhs rhs : Word) : BinaryOp → Except Fault Word
  | .add => .ok (lhs + rhs)
  | .subtract => .ok (lhs - rhs)
  | .multiply => .ok (lhs * rhs)
  | .divide => if rhs = 0 then .error .divisionByZero else .ok (lhs.sdiv rhs)
  | .and => .ok (lhs &&& rhs)
  | .or => .ok (lhs ||| rhs)
  | .xor => .ok (lhs ^^^ rhs)

inductive UnaryOp
  | copy
  | double
  | clamp
  deriving DecidableEq

/-- Clamping turns negative values into 0. -/
def UnaryOp.apply (value : Word) : UnaryOp → Word
  | .copy => value
  | .double => value + value
  | .clamp => if value.toInt < 0 then 0 else value

end MagicAssembly
