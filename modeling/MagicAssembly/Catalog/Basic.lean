import MagicAssembly.Catalog.Definition

namespace MagicAssembly

/-- Definitions in the order in which they were registered. -/
structure Catalog where
  definitions : List Definition
  deriving DecidableEq

/-- A word read as an instruction. -/
structure Decoded where
  definition : Definition
  operands : Operands
  deriving DecidableEq

/-- What keeps `new` out of a catalog that already holds `existing`. -/
def Definition.objection (new existing : Definition) : Option CatalogFault :=
  if existing.mnemonic = new.mnemonic ∧ existing.kind = new.kind then some (.duplicate new.kind)
  else if existing.template.Overlaps new.template then some (.conflict existing.mnemonic)
  else none

namespace Catalog

def empty : Catalog :=
  ⟨[]⟩

/-- The earliest definition that objects is the one reported. -/
def register (c : Catalog) (d : Definition) : Except CatalogError Catalog :=
  match c.definitions.findSome? d.objection with
  | some fault => .error ⟨d.mnemonic, fault⟩
  | none => .ok ⟨c.definitions ++ [d]⟩

/-- Stops at the first entry that cannot be built or registered. -/
def addEntries (c : Catalog) : List Entry → Except CatalogError Catalog
  | [] => .ok c
  | e :: es => do
    let d ← e.build
    let c' ← c.register d
    c'.addEntries es

def ofEntries (entries : List Entry) : Except CatalogError Catalog :=
  empty.addEntries entries

def size (c : Catalog) : Nat :=
  c.definitions.length

def byMnemonic? (c : Catalog) (mnemonic : String) : Option Definition :=
  c.definitions.find? fun d => d.mnemonic = mnemonic

/-- An opcode may be registered under several formats; the first one counts. -/
def byOpcode? (c : Catalog) (opcode : Opcode) : Option Definition :=
  c.definitions.find? fun d => d.opcode = opcode

def decode (c : Catalog) (word pc : Word) : Option Decoded :=
  (c.definitions.find? fun d => d.template.Matches word).map fun d =>
    ⟨d, d.template.extract word pc⟩

def encode (c : Catalog) (opcode : Opcode) (operands : List Word) (pc : Word) : Option Word :=
  (c.byOpcode? opcode).bind fun d => d.template.encode operands pc

end Catalog

end MagicAssembly
