import Schematic.Binary64.Basic

namespace Schematic

/-- An object keeps its members in the order of the text, repeated names included. Integers of at
most 64 bits are kept exactly, all other numbers as binary64 numbers. -/
inductive Json
  | null
  | bool (value : Bool)
  | integer (value : Int)
  | float (value : Binary64)
  | text (value : String)
  | array (elements : List Json)
  | object (members : List (String × Json))
  deriving Inhabited

namespace Json

/-- What a name stands for among the members of an object: the last of them that has the name. -/
def member? (members : List (String × Json)) (name : String) : Option Json :=
  members.reverse.lookup name

end Json

end Schematic
