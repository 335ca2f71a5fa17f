import MagicAssembly.Labels
import MagicAssembly.Text.Blank
import MagicAssembly.Text.Words

namespace MagicAssembly

/-- Blanks and commas separate tokens; parentheses belong to theirs. -/
def separatesTokens (c : Char) : Bool :=
  Text.isBlank c || c = ','

def tokenize (line : String) : List String :=
  (Text.words separatesTokens line.toList).map String.ofList

structure Statement where
  word : Word
  tokens : List String
  deriving DecidableEq

/-- Statements in address order, and the labels their jumps may name. -/
structure Program where
  statements : Array Statement
  labels : Labels

namespace Program

def empty : Program :=
  ⟨#[], .empty⟩

def push (p : Program) (word : Word) (source : String) : Program :=
  { p with statements := p.statements.push ⟨word, tokenize source⟩ }

def define (p : Program) (scope : Scope) (name : String) (label : Label) :
    Except LabelError Program :=
  (p.labels.define scope name label).map fun labels => { p with labels }

def size (p : Program) : Nat :=
  p.statements.size

end Program

end MagicAssembly
