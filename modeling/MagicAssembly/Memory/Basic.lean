import MagicAssembly.Memory.Region
import Std.Data.ExtHashMap

namespace MagicAssembly

/-- The words stored so far. A word never stored is 0. -/
structure Memory where
  stored : Std.ExtHashMap Word Word

namespace Memory

def empty : Memory :=
  ⟨∅⟩

def find? (m : Memory) (address : Word) : Option Word :=
  m.stored[address]?

/-- The word at an address, whoever may read it. -/
def get (m : Memory) (address : Word) : Word :=
  (m.find? address).getD 0

/-- Stores a word, whoever may write it. -/
def put (m : Memory) (address value : Word) : Memory :=
  ⟨m.stored.insert address value⟩

def read (m : Memory) (address : Word) : Except AddressError Word :=
  (checkRead address).map fun _ => m.get address

def write (m : Memory) (address value : Word) : Except AddressError Memory :=
  (checkWrite address).map fun _ => m.put address value

/-- Places a program word, in text as well as in data. -/
def preload (m : Memory) (address value : Word) : Except AddressError Memory :=
  (checkRead address).map fun _ => m.put address value

/-- How many addresses have been stored to. -/
def size (m : Memory) : Nat :=
  m.stored.size

end Memory

end MagicAssembly
