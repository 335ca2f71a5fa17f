import MagicAssembly.Word

namespace MagicAssembly

inductive FieldKind
  | register
  | immediate
  | branchOffset
  | jumpAddress
  deriving DecidableEq

def registerFieldBits : Nat := 5
def immediateFieldBits : Nat := 16
def jumpFieldBits : Nat := 26

/-- Bits of the address after `pc` that a jump cannot change. -/
def jumpRegion (pc : Word) : Word :=
  (pc + 4) &&& 0xF0000000

namespace FieldKind

/-- The operand that the bits `raw` stand for in an instruction at `pc`. Branches count words from
the next instruction; jumps count words from the start of its region. -/
def operand (raw pc : Word) : FieldKind → Word
  | .register => raw
  | .immediate => raw.signExtend16
  | .branchOffset => pc + (4 : Word) + (raw.signExtend16 <<< 2)
  | .jumpAddress => jumpRegion pc ||| (raw <<< 2)

/-- The bits proposed for an operand. They still have to be cut to the field and checked. -/
def proposal (value pc : Word) : FieldKind → Word
  | .register | .immediate => value
  | .branchOffset => (value - (pc + 4)) >>> 2
  | .jumpAddress => value >>> 2

end FieldKind

/-- A run of operand bits; `shift` is the position of the lowest one. -/
structure Field where
  kind : FieldKind
  shift : Nat
  width : Nat
  deriving DecidableEq

namespace Field

def mask (f : Field) : Word :=
  (BitVec.allOnes f.width).setWidth 32 <<< f.shift

def raw (f : Field) (word : Word) : Word :=
  (word &&& f.mask) >>> f.shift

def extract (f : Field) (word pc : Word) : Word :=
  f.kind.operand (f.raw word) pc

/-- Refuses an operand that the field would not give back. -/
def insert (f : Field) (value pc : Word) : Option Word :=
  let word := (f.kind.proposal value pc <<< f.shift) &&& f.mask
  if f.extract word pc = value then some word else none

end Field

end MagicAssembly
