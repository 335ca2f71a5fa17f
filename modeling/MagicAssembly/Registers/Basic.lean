import MagicAssembly.Word

namespace MagicAssembly

/-- A register number as an instruction holds it. -/
abbrev Register := BitVec 5

def registerCount : Nat := 32

/-- Register 0 has no cell: register `i + 1` is kept in cell `i`. -/
structure Registers where
  cells : Vector Word 31
  deriving DecidableEq

namespace Registers

def zeroIndex : Nat := 0
def globalPointerIndex : Nat := 28
def stackPointerIndex : Nat := 29

def defaultGlobalPointer : Word := 0x10008000
def defaultStackPointer : Word := 0x7FFFEFFC

/-- Register 0 and numbers that name no register read 0. -/
def get (r : Registers) : Nat → Word
  | 0 => 0
  | i + 1 => r.cells[i]?.getD 0

/-- Register 0 and numbers that name no register take no value. -/
def set (r : Registers) (index : Nat) (value : Word) : Registers :=
  match index with
  | 0 => r
  | i + 1 => ⟨r.cells.setIfInBounds i value⟩

def zeroed : Registers :=
  ⟨Vector.replicate 31 0⟩

def withPointers (global stack : Word) : Registers :=
  (zeroed.set globalPointerIndex global).set stackPointerIndex stack

def default : Registers :=
  withPointers defaultGlobalPointer defaultStackPointer

/-- All registers in ascending order. -/
def values (r : Registers) : List Word :=
  0 :: r.cells.toList

end Registers

end MagicAssembly
