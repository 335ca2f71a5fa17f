import MagicAssembly.Word

namespace MagicAssembly

inductive AddressFault
  | unaligned
  | outOfRange
  | readOnly
  deriving DecidableEq

def AddressFault.message : AddressFault → String
  | .unaligned => "address not aligned on word boundary"
  | .outOfRange => "address out of range"
  | .readOnly => "address is not writable"

structure AddressError where
  address : Word
  cause : AddressFault
  deriving DecidableEq

def AddressError.message (e : AddressError) : String :=
  e.cause.message ++ " (" ++ Word.hex e.address ++ ")"

/-- Programs may read text and data and write data. -/
inductive Region
  | reserved
  | text
  | data
  | kernel
  deriving DecidableEq

namespace Region

def first : Region → Word
  | .reserved => 0x00000000
  | .text => 0x00400000
  | .data => 0x10000000
  | .kernel => 0x80000000

def last : Region → Word
  | .reserved => 0x003FFFFF
  | .text => 0x0FFFFFFF
  | .data => 0x7FFFFFFF
  | .kernel => 0xFFFFFFFF

def Contains (r : Region) (address : Word) : Prop :=
  r.first ≤ address ∧ address ≤ r.last

instance (r : Region) (address : Word) : Decidable (r.Contains address) :=
  inferInstanceAs (Decidable (_ ∧ _))

def ofAddress (address : Word) : Region :=
  if address ≤ Region.reserved.last then .reserved
  else if address ≤ Region.text.last then .text
  else if address ≤ Region.data.last then .data
  else .kernel

end Region

/-- Where programs place their static data. -/
def dataSegmentBase : Word := 0x10010000

def Aligned (address : Word) : Prop :=
  address.toNat % wordBytes = 0

instance (address : Word) : Decidable (Aligned address) :=
  inferInstanceAs (Decidable (_ = _))

def checkAligned (address : Word) : Except AddressError Unit :=
  if Aligned address then .ok () else .error ⟨address, .unaligned⟩

/-- Alignment comes before the region. -/
def checkRead (address : Word) : Except AddressError Unit := do
  checkAligned address
  match Region.ofAddress address with
  | .text | .data => .ok ()
  | .reserved | .kernel => .error ⟨address, .outOfRange⟩

def checkWrite (address : Word) : Except AddressError Unit := do
  checkAligned address
  match Region.ofAddress address with
  | .data => .ok ()
  | .text => .error ⟨address, .readOnly⟩
  | .reserved | .kernel => .error ⟨address, .outOfRange⟩

end MagicAssembly
