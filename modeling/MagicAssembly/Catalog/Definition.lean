import MagicAssembly.Opcode
import MagicAssembly.Template.Grammar

namespace MagicAssembly

/-- An instruction before it is built: `usage` is an example line and `template` the text of its
bit pattern. -/
structure Entry where
  opcode : Opcode
  usage : String
  description : String
  kind : FormatKind
  template : String

structure Definition where
  opcode : Opcode
  usage : String
  description : String
  kind : FormatKind
  template : Template
  deriving DecidableEq

inductive CatalogFault
  | template (cause : TemplateError)
  | layoutMismatch (kind : FormatKind)
  | duplicate (kind : FormatKind)
  | conflict (existing : String)
  deriving DecidableEq

def CatalogFault.message : CatalogFault → String
  | .template cause => cause.message
  | .layoutMismatch kind => "field layout does not match " ++ kind.name ++ " format"
  | .duplicate kind => "already registered as " ++ kind.name
  | .conflict existing => "encoding is indistinguishable from " ++ existing

/-- Why the instruction of that mnemonic stays out of the catalog. -/
structure CatalogError where
  mnemonic : String
  fault : CatalogFault
  deriving DecidableEq

def CatalogError.message (e : CatalogError) : String :=
  e.mnemonic ++ ": " ++ e.fault.message

def Definition.mnemonic (d : Definition) : String :=
  d.opcode.mnemonic

/-- The template is read before its layout is held against the format. -/
def Entry.build (e : Entry) : Except CatalogError Definition :=
  match Template.parse e.template with
  | .error cause => .error ⟨e.opcode.mnemonic, .template cause⟩
  | .ok t =>
    if t.Fits e.kind then .ok ⟨e.opcode, e.usage, e.description, e.kind, t⟩
    else .error ⟨e.opcode.mnemonic, .layoutMismatch e.kind⟩

end MagicAssembly
