import StructuralTypes.Declarations
import StructuralTypes.Ty.Mapped

/-!
The alternatives of a union: its members, with the alternatives of members that stand for unions in
their place. Each union is entered once, so a union that reaches itself through a name adds nothing
new.
-/

namespace StructuralTypes

/-- How far the alternatives of a union have been collected. -/
structure Gathering where
  entered : List Ty
  found : List Ty

namespace Gathering

def start : Gathering := ⟨[], []⟩

/-- Adds an alternative, unless it equals one that was found before. -/
def add (g : Gathering) (member : Ty) : Gathering :=
  if g.found.any (· == member) then g else { g with found := g.found ++ [member] }

end Gathering

namespace Declarations

/-- Collects from members in order; members that stand for unions are left to `enter`. -/
def gatherMembers (d : Declarations) (enter : List Ty → Gathering → Except Fault Gathering) :
    List Ty → Gathering → Except Fault Gathering
  | [], g => .ok g
  | member :: rest, g =>
    match d.resolve member with
    | .error fault => .error fault
    | .ok (.union members) =>
      match enter members g with
      | .error fault => .error fault
      | .ok g => d.gatherMembers enter rest g
    | .ok _ => d.gatherMembers enter rest (g.add member)

/-- Collects the alternatives of a union that has not been entered before. Unions are entered at
most `budget` deep; no more than there are different unions at hand can be. -/
def gatherUnion (d : Declarations) : Nat → List Ty → Gathering → Except Fault Gathering
  | 0, _, g => .ok g
  | budget + 1, members, g =>
    if g.entered.any (· == .union members) then .ok g
    else d.gatherMembers (d.gatherUnion budget) members
      { g with entered := .union members :: g.entered }

/-- The alternatives of a type; a type that is no union is its only one. -/
def alternatives (d : Declarations) (type : Ty) : Except Fault (List Ty) :=
  match d.resolve type with
  | .error fault => .error fault
  | .ok (.union members) =>
    (d.gatherUnion (type.size + d.size + 1) members .start).map Gathering.found
  | .ok t => .ok [t]

/-- A type seen as an object, if it stands for one. -/
def objectView (d : Declarations) (type : Ty) : Except Fault (Option ObjectTy) :=
  (d.resolve type).map fun t => t.expanded.object?

def objectViews (d : Declarations) : List Ty → Except Fault (List (Option ObjectTy))
  | [] => .ok []
  | type :: rest =>
    match d.objectView type with
    | .error fault => .error fault
    | .ok view => (d.objectViews rest).map (view :: ·)

end Declarations

end StructuralTypes
