import MagicAssembly.Word
import Std.Data.ExtHashMap

namespace MagicAssembly

/-- A label belongs to its source file or to all of them. -/
inductive Scope
  | file
  | global
  deriving DecidableEq, Hashable

structure Label where
  address : Word
  line : Nat
  deriving DecidableEq

structure Labels where
  table : Std.ExtHashMap (Scope × String) Label

/-- A second definition of a name in one scope. -/
structure LabelError where
  name : String
  firstLine : Nat
  deriving DecidableEq

def LabelError.message (e : LabelError) : String :=
  "duplicate label '" ++ e.name ++ "' (first defined at line " ++ toString e.firstLine ++ ")"

namespace Labels

def empty : Labels :=
  ⟨∅⟩

def get? (ls : Labels) (scope : Scope) (name : String) : Option Label :=
  ls.table[(scope, name)]?

def define (ls : Labels) (scope : Scope) (name : String) (label : Label) :
    Except LabelError Labels :=
  match ls.get? scope name with
  | some first => .error ⟨name, first.line⟩
  | none => .ok ⟨ls.table.insert (scope, name) label⟩

/-- A label of the file hides a global one. -/
def resolve? (ls : Labels) (name : String) : Option Word :=
  ((ls.get? .file name).or (ls.get? .global name)).map Label.address

def size (ls : Labels) : Nat :=
  ls.table.size

theorem get_empty (scope : Scope) (name : String) : empty.get? scope name = none :=
  Std.ExtHashMap.getElem?_empty

theorem size_empty : empty.size = 0 :=
  Std.ExtHashMap.size_empty

section

variable {ls ls' : Labels} {scope : Scope} {name : String} {label : Label}

theorem define_of_new (new : ls.get? scope name = none) (label : Label) :
    ls.define scope name label = .ok ⟨ls.table.insert (scope, name) label⟩ := by
  rw [define, new]

theorem get_define (defined : ls.define scope name label = .ok ls') (scope' : Scope)
    (name' : String) :
    ls'.get? scope' name' =
      if (scope, name) = (scope', name') then some label else ls.get? scope' name' := by
  unfold define at defined
  split at defined <;> cases defined
  simp only [get?, Std.ExtHashMap.getElem?_insert, beq_iff_eq]

end

end Labels

end MagicAssembly
