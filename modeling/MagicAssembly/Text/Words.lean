namespace MagicAssembly.Text

/-- The longest runs free of separators, in order. Neighbouring separators enclose no word. -/
def words (separates : Char → Bool) (text : List Char) : List (List Char) :=
  (text.splitOnP separates).filter (!·.isEmpty)

end MagicAssembly.Text
