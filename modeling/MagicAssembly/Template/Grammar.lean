import MagicAssembly.Template.Basic
import MagicAssembly.Text.Blank
import MagicAssembly.Text.Words

namespace MagicAssembly

/-- What one stretch of template text stands for. -/
inductive Segment
  | bit (value : Bool)
  | field (kind : FieldKind) (width : Nat)
  deriving DecidableEq

def Segment.width : Segment → Nat
  | .bit _ => 1
  | .field _ width => width

inductive TemplateError
  | malformed (group : String)
  | width (bits : Nat)
  deriving DecidableEq

def TemplateError.message : TemplateError → String
  | .malformed group => "malformed template token \"" ++ group ++ "\""
  | .width bits => "template is " ++ toString bits ++ " bits wide, expected " ++ toString wordBits

namespace Template

def isLetter (c : Char) : Bool :=
  c ∈ ['d', 'r', 's', 't']

/-- A run of one letter that is over is one register field. -/
def flush : Option (Char × Nat) → List Segment
  | none => []
  | some (_, width) => [.field .register width]

/-- Reads a group from left to right. The run of the letters read last is over at a digit, at
another letter and at the end. -/
def scan : Option (Char × Nat) → List Char → Option (List Segment)
  | run, [] => some (flush run)
  | run, c :: cs =>
    if c = '0' ∨ c = '1' then (scan none cs).map fun ss => flush run ++ .bit (c = '1') :: ss
    else if isLetter c then
      match run with
      | some (letter, width) =>
        if letter = c then scan (some (letter, width + 1)) cs
        else (scan (some (c, 1)) cs).map fun ss => .field .register width :: ss
      | none => scan (some (c, 1)) cs
    else none

/-- Runs never reach past the end of their group. -/
def groupSegments? (group : List Char) : Option (List Segment) :=
  if group = "immediate".toList then some [.field .immediate immediateFieldBits]
  else if group = "branchoffset".toList then some [.field .branchOffset immediateFieldBits]
  else if group = "address26".toList then some [.field .jumpAddress jumpFieldBits]
  else scan none group

/-- The leftmost bad group is the one reported. -/
def segments : List (List Char) → Except TemplateError (List Segment)
  | [] => .ok []
  | group :: groups =>
    match groupSegments? group with
    | none => .error (.malformed (String.ofList group))
    | some first => (segments groups).map (first ++ ·)

def totalWidth : List Segment → Nat
  | [] => 0
  | s :: ss => s.width + totalWidth ss

/-- Each segment lies directly above those that follow it. -/
def ofSegments : List Segment → Template
  | [] => ⟨0, 0, []⟩
  | .bit value :: rest =>
    let t := ofSegments rest
    let here : Word := 1 <<< totalWidth rest
    { t with
      fixedMask := t.fixedMask ||| here
      fixedBits := if value then t.fixedBits ||| here else t.fixedBits }
  | .field kind width :: rest =>
    let t := ofSegments rest
    { t with fields := ⟨kind, totalWidth rest, width⟩ :: t.fields }

def groups (text : String) : List (List Char) :=
  Text.words Text.isBlank text.toList

def parse (text : String) : Except TemplateError Template :=
  match segments (groups text) with
  | .error e => .error e
  | .ok ss =>
    if totalWidth ss = wordBits then .ok (ofSegments ss) else .error (.width (totalWidth ss))

end Template

end MagicAssembly
