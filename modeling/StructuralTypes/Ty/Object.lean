import StructuralTypes.Ty.Build

namespace StructuralTypes

structure ObjectTy where
  fields : List (String × Slot Ty)
  index : Option (IndexRule Ty)

namespace Slot

variable {α : Type}

def setReadonly (readonly : Bool) (s : Slot α) : Slot α :=
  { s with readonly }

def setOptional (optional : Bool) (s : Slot α) : Slot α :=
  { s with optional }

end Slot

namespace IndexRule

variable {α : Type}

def setReadonly (readonly : Bool) (r : IndexRule α) : IndexRule α :=
  { r with readonly }

end IndexRule

namespace ObjectTy

def toTy (o : ObjectTy) : Ty :=
  .object o.fields o.index

/-- The object type with the given fields, whose names must differ. -/
def build (specs : List (String × SlotSpec)) (index : Option (IndexRule Ty)) :
    Except Fault ObjectTy :=
  (Ty.buildFields [] specs).map (⟨·, index⟩)

/-- The object type with the fields of a table, where the last entry for a name counts. -/
def ofTable (specs : List (String × SlotSpec)) (index : Option (IndexRule Ty)) :
    Except Fault ObjectTy :=
  build (Assoc.ofList specs) index

/-- The one name that arguments cannot have, since the receiver of the call has it. -/
def receiver : String := "cls"

/-- The object type with the fields of the named arguments of a call. -/
def ofArguments (specs : List (String × SlotSpec)) : Except Fault ObjectTy :=
  if Assoc.contains specs receiver then .error (.nameTaken receiver)
  else ofTable specs none

def get? (o : ObjectTy) (name : String) : Option (Slot Ty) :=
  o.fields.lookup name

def contains (o : ObjectTy) (name : String) : Bool :=
  Assoc.contains o.fields name

/-- The field of a name, which must be there. -/
def get (o : ObjectTy) (name : String) : Except Fault (Slot Ty) :=
  match o.get? name with
  | some slot => .ok slot
  | none => .error (.fieldNotFound name)

def names (o : ObjectTy) : List String :=
  Assoc.names o.fields

def keys (o : ObjectTy) : Names :=
  .ofList o.names

def requiredNames (o : ObjectTy) : List String :=
  Assoc.names (o.fields.filter fun f => !f.2.optional)

/-- Adds a field at the end, or replaces it in its place. -/
def insert (o : ObjectTy) (name : String) (slot : Slot Ty) : ObjectTy :=
  { o with fields := Assoc.insert name slot o.fields }

def insertSpec (o : ObjectTy) (name : String) (spec : SlotSpec) : Except Fault ObjectTy :=
  (spec.toSlot .notField).map (o.insert name)

def erase (o : ObjectTy) (name : String) : ObjectTy :=
  { o with fields := Assoc.erase name o.fields }

def setIndex (o : ObjectTy) (index : Option (IndexRule Ty)) : ObjectTy :=
  { o with index }

def mapFields (o : ObjectTy) (f : Slot Ty → Slot Ty) : ObjectTy :=
  { o with fields := o.fields.map fun field => (field.1, f field.2) }

/-- Sets the readonly flag of every field and of the index rule. -/
def setReadonly (readonly : Bool) (o : ObjectTy) : ObjectTy :=
  ⟨(o.mapFields (Slot.setReadonly readonly)).fields,
    o.index.map (IndexRule.setReadonly readonly)⟩

def setOptional (optional : Bool) (o : ObjectTy) : ObjectTy :=
  o.mapFields (Slot.setOptional optional)

/-- The object with the fields of the given names only, and no index rule. -/
def keeping (o : ObjectTy) (names : List String) : ObjectTy :=
  ⟨o.fields.filter fun f => names.contains f.1, none⟩

def dropping (o : ObjectTy) (names : List String) : ObjectTy :=
  { o with fields := o.fields.filter fun f => !names.contains f.1 }

/-- The object with one required field of the same type for each name; the names must differ. -/
def uniform (names : List String) (type : Ty) (readonly : Bool) : Except Fault ObjectTy :=
  build (names.map fun name => (name, .slot ⟨type, readonly, false⟩)) none

end ObjectTy

namespace Ty

def object? : Ty → Option ObjectTy
  | .object fields index => some ⟨fields, index⟩
  | _ => none

end Ty

end StructuralTypes
