import StructuralTypes.Text.Quoted

namespace StructuralTypes.Text

/-- The items one after the other, with a separator between neighbours. -/
def joined (separator : String) : List String → String
  | [] => ""
  | [item] => item
  | item :: rest => item ++ separator ++ joined separator rest

def quotedList (items : List String) : String :=
  "[" ++ joined ", " (items.map quoted) ++ "]"

end StructuralTypes.Text
