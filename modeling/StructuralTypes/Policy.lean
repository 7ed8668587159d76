import StructuralTypes.Fault

namespace StructuralTypes

/-- Switches that each allow one relaxation. -/
structure Policy where
  /-- A literal fits where its base primitive is expected. -/
  widenLiterals : Bool := true
  /-- An index rule can supply a required field whose name is in its domain. -/
  indexSupplies : Bool := true
  /-- A tuple may leave out positions that are optional in the target. -/
  shortTuples : Bool := true
  /-- A union with a tag is not narrowed by the presence of a field. -/
  enforceTags : Bool := true
  deriving DecidableEq

namespace Policy

def toTable (p : Policy) : List (String × Bool) :=
  [("widen_literals", p.widenLiterals),
   ("index_signature_satisfies_required", p.indexSupplies),
   ("allow_trailing_optional_tuple", p.shortTuples),
   ("enforce_tag_narrowing", p.enforceTags)]

/-- The setting of a switch in a table of values; a switch that is left out is on. -/
def switch (table : List (String × Value)) (name : String) : Except Fault Bool :=
  match table.lookup name with
  | none => .ok true
  | some (.scalar (.bool b)) => .ok b
  | some v => .error (.switchNotBoolean name v)

def ofTable (table : List (String × Value)) : Except Fault Policy := do
  let widenLiterals ← switch table "widen_literals"
  let indexSupplies ← switch table "index_signature_satisfies_required"
  let shortTuples ← switch table "allow_trailing_optional_tuple"
  let enforceTags ← switch table "enforce_tag_narrowing"
  return { widenLiterals, indexSupplies, shortTuples, enforceTags }

end Policy

end StructuralTypes
