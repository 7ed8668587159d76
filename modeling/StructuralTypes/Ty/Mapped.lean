import StructuralTypes.Ty.Object

namespace StructuralTypes

/-- A table of slots over a set of names. The builder puts it in ascending order of the names. -/
structure MappedTy where
  entries : List (String × Slot Ty)

namespace MappedTy

def toTy (m : MappedTy) : Ty :=
  .mapped m.entries

def keys (m : MappedTy) : Names :=
  .ofList (Assoc.names m.entries)

def expand (m : MappedTy) : ObjectTy :=
  ⟨m.entries, none⟩

/-- The names of a table of flags that are not in the set of names. -/
def strayNames (keys : Names) (flags : List (String × Bool)) : Names :=
  (Names.ofList (Assoc.names flags)).diff keys

def foreignValue? (values : List (String × Ty)) : Option (String × Scalar) :=
  values.findSome? fun entry => entry.2.foreign?.map (entry.1, ·)

/-- The mapped type over a set of names with the given tables. The values must be given for exactly
these names, flags may be left out; in each table the last entry for a name counts. -/
def build (keys : List String) (values : List (String × Ty))
    (readonly optional : List (String × Bool)) : Except Fault MappedTy :=
  let keys := Names.ofList keys
  let values := Assoc.ofList values
  let readonly := Assoc.ofList readonly
  let optional := Assoc.ofList optional
  let valueKeys := Names.ofList (Assoc.names values)
  if valueKeys ≠ keys then
    .error (.keySetDisagrees .values (valueKeys.symmDiff keys))
  else
    match foreignValue? values with
    | some (key, v) => .error (.notMappedValue key v)
    | none =>
      if (strayNames keys readonly).isEmpty = false then
        .error (.keySetDisagrees .readonly (strayNames keys readonly))
      else if (strayNames keys optional).isEmpty = false then
        .error (.keySetDisagrees .optional (strayNames keys optional))
      else .ok ⟨(Assoc.sorted values).map fun (name, type) =>
        (name, ⟨type, (readonly.lookup name).getD false, (optional.lookup name).getD false⟩)⟩

/-- The mapped type over the fields of an object. A modifier that is given replaces that of every
field. -/
def ofObject (o : ObjectTy) (readonly optional : Option Bool) : Except Fault MappedTy :=
  build o.names (o.fields.map fun f => (f.1, f.2.type))
    (o.fields.map fun f => (f.1, readonly.getD f.2.readonly))
    (o.fields.map fun f => (f.1, optional.getD f.2.optional))

end MappedTy

namespace Ty

def mapped? : Ty → Option MappedTy
  | .mapped entries => some ⟨entries⟩
  | _ => none

end Ty

end StructuralTypes
