import StructuralTypes.Ty.Key

namespace StructuralTypes

/-- What a text describes: a type, or the set of names of a key type. -/
inductive Style where
  | type
  | domain

namespace Literal

def textIn : Style → Literal → String
  | .type, l => l.render
  | .domain, .text s => Text.quoted s
  | .domain, l => l.keyText

end Literal

namespace Ty

/-- A word in front, when a flag is set. -/
def readonlyMark (readonly : Bool) : String :=
  if readonly then "readonly " else ""

/-- A mark behind, when a flag is set. -/
def optionalMark (optional : Bool) : String :=
  if optional then "?" else ""

def braced : List String → String
  | [] => "\x7b\x7d"
  | parts => "\x7b " ++ Text.joined "; " parts ++ " \x7d"

/-- The text of the element of an array; a union is put in parentheses. -/
def elementText (element : Ty) (text : String) : String :=
  match element with
  | .union _ => "(" ++ text ++ ")"
  | _ => text

mutual

def text : Style → Ty → String
  | _, .primitive name => name
  | style, .literal l => l.textIn style
  | _, .object fields index => braced (textFields fields ++ textIndex index)
  | _, .array element readonly =>
    readonlyMark readonly ++ elementText element (text .type element) ++ "[]"
  | _, .tuple elements => "[" ++ Text.joined ", " (textSlots elements) ++ "]"
  | style, .union members => Text.joined " | " (textMembers style members)
  | _, .mapped entries => "mapped " ++ braced (textFields entries)
  | _, .named name => name
  | _, .foreign v => v.plain
termination_by structural _ t => t

def textFields : List (String × Slot Ty) → List String
  | [] => []
  | (name, ⟨t, readonly, optional⟩) :: rest =>
    (readonlyMark readonly ++ name ++ optionalMark optional ++ ": " ++ text .type t) ::
      textFields rest
termination_by structural fields => fields

def textIndex : Option (IndexRule Ty) → List String
  | none => []
  | some ⟨key, value, readonly⟩ =>
    [readonlyMark readonly ++ "[key: " ++ text .domain key ++ "]: " ++ text .type value]
termination_by structural index => index

def textSlots : List (Slot Ty) → List String
  | [] => []
  | ⟨t, readonly, optional⟩ :: rest =>
    (readonlyMark readonly ++ text .type t ++ optionalMark optional) :: textSlots rest
termination_by structural elements => elements

def textMembers : Style → List Ty → List String
  | _, [] => []
  | style, t :: rest => text style t :: textMembers style rest
termination_by structural _ members => members

end

mutual

/-- The first obstacle to asking for a text, in the order in which the text is written. -/
def textFault? : Style → Ty → Option Fault
  | .domain, .literal l => l.keyFault?
  | .type, .foreign v => some (.notType v.kindName)
  | _, .object fields index => (textFaultFields? fields).or (textFaultIndex? index)
  | _, .array element _ => textFault? .type element
  | _, .tuple elements => textFaultSlots? elements
  | style, .union members => textFaultMembers? style members
  | _, .mapped entries => textFaultFields? entries
  | _, _ => none
termination_by structural _ t => t

def textFaultFields? : List (String × Slot Ty) → Option Fault
  | [] => none
  | (_, ⟨t, _, _⟩) :: rest => (textFault? .type t).or (textFaultFields? rest)
termination_by structural fields => fields

def textFaultIndex? : Option (IndexRule Ty) → Option Fault
  | none => none
  | some ⟨key, value, _⟩ => (textFault? .domain key).or (textFault? .type value)
termination_by structural index => index

def textFaultSlots? : List (Slot Ty) → Option Fault
  | [] => none
  | ⟨t, _, _⟩ :: rest => (textFault? .type t).or (textFaultSlots? rest)
termination_by structural elements => elements

def textFaultMembers? : Style → List Ty → Option Fault
  | _, [] => none
  | style, t :: rest => (textFault? style t).or (textFaultMembers? style rest)
termination_by structural _ members => members

end

/-- The text of a type in a style, unless something inside has none. -/
def textOrFault (style : Style) (t : Ty) : Except Fault String :=
  match textFault? style t with
  | some fault => .error fault
  | none => .ok (text style t)

def render (t : Ty) : Except Fault String :=
  textOrFault .type t

def renderDomain (t : Ty) : Except Fault String :=
  textOrFault .domain t

/-- The text of a type in a log, where a foreign value is shown as it is. -/
def renderLogged : Ty → Except Fault String
  | .foreign v => .ok v.plain
  | t => t.render

end Ty

end StructuralTypes
