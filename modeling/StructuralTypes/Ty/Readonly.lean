import StructuralTypes.Ty.Mapped

namespace StructuralTypes.Ty

mutual

/-- The type with every readonly flag cleared. Names keep standing for their declarations. -/
def thawed : Ty → Ty
  | .object fields index => .object (thawedFields fields) (thawedIndex index)
  | .array element _ => .array (thawed element) false
  | .tuple elements => .tuple (thawedSlots elements)
  | .union members => .union (distinct (thawedMembers members))
  | .mapped entries => .mapped (thawedFields entries)
  | t => t
termination_by structural t => t

def thawedFields : List (String × Slot Ty) → List (String × Slot Ty)
  | [] => []
  | (name, ⟨t, _, optional⟩) :: rest => (name, ⟨thawed t, false, optional⟩) :: thawedFields rest
termination_by structural fields => fields

def thawedIndex : Option (IndexRule Ty) → Option (IndexRule Ty)
  | none => none
  | some ⟨key, value, _⟩ => some ⟨key, thawed value, false⟩
termination_by structural index => index

def thawedSlots : List (Slot Ty) → List (Slot Ty)
  | [] => []
  | ⟨t, _, optional⟩ :: rest => ⟨thawed t, false, optional⟩ :: thawedSlots rest
termination_by structural elements => elements

def thawedMembers : List Ty → List Ty
  | [] => []
  | t :: rest => thawed t :: thawedMembers rest
termination_by structural members => members

end

mutual

/-- The first foreign value inside a type; the value of an index rule is looked at before the
fields. -/
def foreignInside? : Ty → Option Scalar
  | .object fields index => (foreignInIndex? index).or (foreignInFields? fields)
  | .array element _ => foreignInside? element
  | .tuple elements => foreignInSlots? elements
  | .union members => foreignInMembers? members
  | .mapped entries => foreignInFields? entries
  | .foreign v => some v
  | _ => none
termination_by structural t => t

def foreignInFields? : List (String × Slot Ty) → Option Scalar
  | [] => none
  | (_, ⟨t, _, _⟩) :: rest => (foreignInside? t).or (foreignInFields? rest)
termination_by structural fields => fields

def foreignInIndex? : Option (IndexRule Ty) → Option Scalar
  | none => none
  | some ⟨_, value, _⟩ => foreignInside? value
termination_by structural index => index

def foreignInSlots? : List (Slot Ty) → Option Scalar
  | [] => none
  | ⟨t, _, _⟩ :: rest => (foreignInside? t).or (foreignInSlots? rest)
termination_by structural elements => elements

def foreignInMembers? : List Ty → Option Scalar
  | [] => none
  | t :: rest => (foreignInside? t).or (foreignInMembers? rest)
termination_by structural members => members

end

/-- The type with every readonly flag cleared, unless a foreign value stands inside. -/
def thaw (t : Ty) : Except Fault Ty :=
  match t.foreignInside? with
  | some v => .error (.notType v.kindName)
  | none => .ok t.thawed

mutual

/-- The type of a copy: the readonly flags of the outermost level are cleared, in each alternative
of a union. -/
def copied : Ty → Ty
  | .object fields index => (ObjectTy.setReadonly false ⟨fields, index⟩).toTy
  | .array element _ => .array element false
  | .tuple elements => .tuple (elements.map (Slot.setReadonly false))
  | .union members => .union (distinct (copiedMembers members))
  | .mapped entries => (ObjectTy.setReadonly false ⟨entries, none⟩).toTy
  | t => t
termination_by structural t => t

def copiedMembers : List Ty → List Ty
  | [] => []
  | t :: rest => copied t :: copiedMembers rest
termination_by structural members => members

end

/-- The type of a copy of a value, unless a foreign value is given. -/
def copy (t : Ty) : Except Fault Ty :=
  match t.foreign? with
  | some v => .error (.notType v.kindName)
  | none => .ok t.copied

end StructuralTypes.Ty
