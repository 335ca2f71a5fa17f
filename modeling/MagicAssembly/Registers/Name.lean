import MagicAssembly.Registers.Basic

namespace MagicAssembly.Registers

/-- Names in ascending order of the registers they belong to. -/
def names : List String :=
  ["$zero", "$at", "$v0", "$v1", "$a0", "$a1", "$a2", "$a3",
   "$t0", "$t1", "$t2", "$t3", "$t4", "$t5", "$t6", "$t7",
   "$s0", "$s1", "$s2", "$s3", "$s4", "$s5", "$s6", "$s7",
   "$t8", "$t9", "$k0", "$k1", "$gp", "$sp", "$fp", "$ra"]

def name? (index : Nat) : Option String :=
  names[index]?

/-- Every five-bit number has a name. -/
def name (r : Register) : String :=
  names.get ⟨r.toNat, r.isLt⟩

def digitsValue (digits : List Char) : Nat :=
  digits.foldl (fun value c => 10 * value + (c.toNat - '0'.toNat)) 0

/-- One or more decimal digits. -/
def digits? (text : List Char) : Option Nat :=
  if text ≠ [] ∧ text.all Char.isDigit then some (digitsValue text) else none

/-- Digits behind at most one plus sign. -/
def number? : List Char → Option Nat
  | '+' :: digits => digits? digits
  | digits => digits? digits

/-- The register a name or a number written after `$` stands for. The frame pointer has a second
name. -/
def index? (text : String) : Option Nat :=
  match names.idxOf? text with
  | some index => some index
  | none =>
    if text = "$s8" then some 30
    else match text.toList with
      | '$' :: number => (number? number).filter (· < registerCount)
      | _ => none

end MagicAssembly.Registers
