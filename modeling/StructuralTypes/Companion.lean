import StructuralTypes.Declarations
import StructuralTypes.Ty.Mapped
import StructuralTypes.Ty.Text
import StructuralTypes.Log

namespace StructuralTypes

/-- The difference between the names of a source and those of its companion. -/
structure Drift where
  missing : Names
  extra : Names
  deriving DecidableEq

namespace Drift

def between (source companion : Names) : Drift :=
  ⟨source.diff companion, companion.diff source⟩

def ofLists (missing extra : List String) : Drift :=
  ⟨.ofList missing, .ofList extra⟩

def isNone (drift : Drift) : Bool :=
  drift.missing.isEmpty && drift.extra.isEmpty

end Drift

namespace Companion

/-- The names that a companion of a type ranges over; an index rule adds none. -/
def sourceKeys (d : Declarations) (source : Ty) : Except Fault Names :=
  match d.resolve source with
  | .error fault => .error fault
  | .ok (.mapped entries) => .ok (MappedTy.mk entries).keys
  | .ok (.object fields index) => .ok (ObjectTy.mk fields index).keys
  | .ok t => .error (.notCompanionSource t.kindName)

def drift (d : Declarations) (source : Ty) (companion : MappedTy) : Except Fault Drift :=
  (sourceKeys d source).map fun keys => .between keys companion.keys

/-- The companion of a source in which every name has the same flag: whether a value counts as
true. -/
def uniform (d : Declarations) (source : Ty) (flag : Value) : Except Fault MappedTy :=
  (sourceKeys d source).map fun keys =>
    ⟨keys.toList.map fun key => (key, ⟨.literal (.bool flag.truth), false, false⟩)⟩

/-- The flags of table entries, which must all be truth values. -/
def flagsOf : List (String × Slot Ty) → Except Fault (List (String × Bool))
  | [] => .ok []
  | (key, slot) :: rest =>
    match slot.type with
    | .literal (.bool b) => (flagsOf rest).map ((key, b) :: ·)
    | t =>
      match t.render with
      | .error fault => .error fault
      | .ok text => .error (.notFlag key text)

def flags (companion : MappedTy) : Except Fault (List (String × Bool)) :=
  flagsOf companion.entries

def log (source : Ty) (drift : Drift) : List Log.Entry :=
  if drift.isNone then []
  else
    [⟨.warning, .companion, source.renderLogged.map fun text =>
      "Companion out of sync with " ++ text ++ ": missing " ++
        Text.quotedList drift.missing.toList ++ ", extra " ++
        Text.quotedList drift.extra.toList⟩]

end Companion

end StructuralTypes
