import MagicAssembly.Disassembly
import MagicAssembly.Instruction.Effect

namespace MagicAssembly.Decoded

/-- The instruction as an error shows it. The address in the word of a jump is not where it goes, so
a jump is shown as it was written. -/
def describe (d : Decoded) (tokens : List String) : String :=
  if d.definition.opcode = .teleport ∧ tokens ≠ [] then " ".intercalate tokens else d.render

def instruction (d : Decoded) (tokens : List String) : Instruction :=
  .ofOperands d.definition.opcode d.operands tokens

def execute (d : Decoded) (tokens : List String) (address : Word) (labels : Labels)
    (s : Storage) : Except ExecutionError Control × Storage :=
  let (result, s') := (d.instruction tokens).execute labels s
  (result.mapError fun fault => ⟨d.describe tokens, address, fault⟩, s')

end MagicAssembly.Decoded
