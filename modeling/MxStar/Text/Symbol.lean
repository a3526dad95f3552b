/-!
Names made fit for the assembler: only ASCII letters, digits and underscores stay.
-/
namespace MxStar.Text

def isSymbolChar (c : Char) : Bool := c.isAlphanum || c = '_'

/-- A name with an underscore for each character that may not stand in an assembly symbol. -/
def symbol (name : String) : String :=
  String.ofList (name.toList.map fun c => if isSymbolChar c then c else '_')

end MxStar.Text
