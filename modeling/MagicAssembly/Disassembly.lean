import MagicAssembly.Catalog.Basic
import MagicAssembly.Registers.Name

namespace MagicAssembly

/-- Only the low five bits of a register operand count. -/
def FieldKind.operandText (value : Word) : FieldKind → String
  | .register => Registers.name (value.setWidth 5)
  | .immediate => Word.decimal value
  | .branchOffset | .jumpAddress => Word.hex value

namespace Definition

def operandTexts (d : Definition) (ops : Operands) : List String :=
  List.zipWith (fun f value => f.kind.operandText value) d.template.fields ops.values

/-- An instruction whose usage shows a parenthesis accesses memory. -/
def AccessesMemory (d : Definition) : Prop :=
  '(' ∈ d.usage.toList

instance (d : Definition) : Decidable d.AccessesMemory :=
  inferInstanceAs (Decidable (_ ∈ _))

def operandList (d : Definition) (ops : Operands) : String :=
  match d.operandTexts ops with
  | [target, base, offset] =>
    if d.AccessesMemory then target ++ ", " ++ offset ++ "(" ++ base ++ ")"
    else ", ".intercalate [target, base, offset]
  | texts => ", ".intercalate texts

def render (d : Definition) (ops : Operands) : String :=
  let operands := d.operandList ops
  if operands = "" then d.mnemonic else d.mnemonic ++ " " ++ operands

end Definition

def Decoded.render (d : Decoded) : String :=
  d.definition.render d.operands

/-- The text of a word that is no instruction. -/
def dataText (word : Word) : String :=
  ".word " ++ Word.hex word

def Catalog.disassemble (c : Catalog) (word pc : Word) : String :=
  match c.decode word pc with
  | some d => d.render
  | none => dataText word

end MagicAssembly
