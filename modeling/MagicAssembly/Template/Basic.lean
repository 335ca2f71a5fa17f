import MagicAssembly.Field
import MagicAssembly.Operands

namespace MagicAssembly

inductive FormatKind
  | register
  | immediate
  | branch
  | jump
  deriving DecidableEq

def FormatKind.name : FormatKind → String
  | .register => "Register"
  | .immediate => "Immediate"
  | .branch => "Branch"
  | .jump => "Jump"

/-- Which bits of a word are fixed, and where its operands lie. -/
structure Template where
  fixedMask : Word
  fixedBits : Word
  fields : List Field
  deriving DecidableEq

namespace Template

def Matches (t : Template) (word : Word) : Prop :=
  word &&& t.fixedMask = t.fixedBits

instance (t : Template) (word : Word) : Decidable (t.Matches word) :=
  inferInstanceAs (Decidable (_ = _))

/-- No bit fixed in both templates tells them apart. -/
def Overlaps (a b : Template) : Prop :=
  (a.fixedBits ^^^ b.fixedBits) &&& a.fixedMask &&& b.fixedMask = 0

instance (a b : Template) : Decidable (a.Overlaps b) :=
  inferInstanceAs (Decidable (_ = _))

def layout (t : Template) : List (FieldKind × Nat) :=
  t.fields.map fun f => (f.kind, f.width)

def Fits (t : Template) : FormatKind → Prop
  | .register => t.layout ≠ [] ∧ t.layout.length ≤ maxOperands ∧
      ∀ f ∈ t.layout, f = (.register, registerFieldBits)
  | .immediate => t.layout =
      [(.register, registerFieldBits), (.register, registerFieldBits),
       (.immediate, immediateFieldBits)]
  | .branch => t.layout =
      [(.register, registerFieldBits), (.register, registerFieldBits),
       (.branchOffset, immediateFieldBits)]
  | .jump => t.layout = [(.jumpAddress, jumpFieldBits)]

instance (t : Template) : (kind : FormatKind) → Decidable (t.Fits kind)
  | .register => inferInstanceAs (Decidable (_ ∧ _ ∧ _))
  | .immediate | .branch | .jump => inferInstanceAs (Decidable (_ = _))

/-- One value for every field, however many there are. -/
def values (t : Template) (word pc : Word) : List Word :=
  t.fields.map fun f => f.extract word pc

def extract (t : Template) (word pc : Word) : Operands :=
  .ofFirst (t.values word pc)

/-- Adds one operand per field to the bits in `word`. -/
def fill (pc : Word) : Word → List Field → List Word → Option Word
  | word, [], [] => some word
  | word, f :: fs, v :: vs => (f.insert v pc).bind fun bits => fill pc (word ||| bits) fs vs
  | _, _, _ => none

def encode (t : Template) (operands : List Word) (pc : Word) : Option Word :=
  fill pc t.fixedBits t.fields operands

end Template

end MagicAssembly
