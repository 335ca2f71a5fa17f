namespace MagicAssembly

/-- Registers, memory cells, addresses and operands all hold the same 32 bits. Where the sign
matters it is `toInt` that is meant. -/
abbrev Word := BitVec 32

def wordBits : Nat := 32

/-- Distance between the addresses of neighbouring words. -/
def wordBytes : Nat := 4

namespace Word

/-- Half bytes, most significant first. -/
def nibbles (w : Word) : List (BitVec 4) :=
  [7, 6, 5, 4, 3, 2, 1, 0].map fun i => w.extractLsb' (4 * i) 4

/-- Always eight lower-case digits after the marker. -/
def hex (w : Word) : String :=
  "0x" ++ String.ofList (w.nibbles.map fun d => d.toNat.digitChar)

/-- The signed value in decimal. -/
def decimal (w : Word) : String :=
  toString w.toInt

/-- Bit 15 fills the upper half; the old upper half is lost. -/
def signExtend16 (w : Word) : Word :=
  (w.setWidth 16).signExtend 32

end Word

end MagicAssembly
