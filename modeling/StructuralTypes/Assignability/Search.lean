import StructuralTypes.Assignability.Rule
import StructuralTypes.Declarations
import StructuralTypes.Log

/-!
Deciding assignability. The search judges the obligations that the rules list. When it meets a
name it assumes that the pair of types at hand fits while it judges what the names stand for, so
that types declared through themselves are judged in finitely many steps. Assumptions made on the
way to a refusal are given up.
-/

namespace StructuralTypes

structure Setting where
  policy : Policy := {}
  declarations : Declarations := .empty

namespace Assignability

/-- Pairs of types that are taken to fit. -/
abbrev Assumptions := List (Ty × Ty)

namespace Assumptions

def holds (assumptions : Assumptions) (source target : Ty) : Bool :=
  assumptions.any fun pair => pair.1 == source && pair.2 == target

/-- Gives up all assumptions but those of an earlier point. -/
def rollback (assumptions earlier : Assumptions) : Assumptions :=
  assumptions.filter fun pair => earlier.holds pair.1 pair.2

end Assumptions

/-- What a source and a target that are neither names nor mapped types require. -/
abbrev Rules := Ty → Ty → Requirement

abbrev Judgement := Except Fault (Verdict × Assumptions)

/-- How a source is judged against a target under assumptions. -/
abbrev Judge := Ty → Ty → Assumptions → Judgement

/-- Judges obligations in order, up to the first that is not met. -/
def judgeAll (judge : Judge) : List Obligation → Assumptions → Judgement
  | [], assumptions => .ok (.accepted, assumptions)
  | .fault fault :: _, _ => .error fault
  | .unmet path reason source target :: _, assumptions =>
    .ok (.rejected path reason (some source) (some target) [], assumptions)
  | .fits path source target :: rest, assumptions =>
    match judge source target assumptions with
    | .error fault => .error fault
    | .ok (.accepted, assumptions) => judgeAll judge rest assumptions
    | .ok (verdict, assumptions) => .ok (verdict.under path, assumptions)

/-- The verdict on a source that fits no member of a target, for the verdicts on the members. -/
def noMember (source target : Ty) (causes : List Verdict) : Verdict :=
  let path := (causes.head?.map Verdict.path).getD []
  .rejected path .noMemberMatches (some source) (some target) causes

/-- Tries members in order, each from the assumptions of the start, up to the first that fits. -/
def judgeSome (judge : Judge) (source target : Ty) (start : Assumptions) :
    List Ty → List Verdict → Assumptions → Judgement
  | [], causes, assumptions => .ok (noMember source target causes, assumptions)
  | member :: rest, causes, assumptions =>
    match judge source member assumptions with
    | .error fault => .error fault
    | .ok (.accepted, assumptions) => .ok (.accepted, assumptions)
    | .ok (verdict, assumptions) =>
      judgeSome judge source target start rest (causes ++ [verdict]) (assumptions.rollback start)

def judgeRequirement (judge : Judge) (source target : Ty) (assumptions : Assumptions) :
    Requirement → Judgement
  | .all obligations => judgeAll judge obligations assumptions
  | .someMember members => judgeSome judge source target assumptions members [] assumptions

/-- Judges a pair with a name on either side: it is assumed to fit while what the names stand for is
judged, and when that fails the assumptions are again those from before. -/
def judgeNamed (declarations : Declarations) (judge : Judge) (source target : Ty)
    (assumptions : Assumptions) : Judgement :=
  if assumptions.holds source target then .ok (.accepted, assumptions)
  else
    match declarations.resolve source, declarations.resolve target with
    | .error fault, _ => .error fault
    | _, .error fault => .error fault
    | .ok source', .ok target' =>
      match judge source' target' ((source, target) :: assumptions) with
      | .error fault => .error fault
      | .ok (.accepted, after) => .ok (.accepted, after)
      | .ok (verdict, after) => .ok (verdict, after.rollback assumptions)

/-- One level of the search under given rules: the parts are left to `judge`. -/
def judgeStep (rules : Rules) (declarations : Declarations) (judge : Judge) : Judge :=
  fun source target assumptions =>
    match source.foreign?, target.foreign? with
    | some v, _ => .error (.notType v.kindName)
    | none, some v => .error (.notType v.kindName)
    | none, none =>
      if source.isNamed || target.isNamed then
        judgeNamed declarations judge source target assumptions
      else
        judgeRequirement judge source.expanded target.expanded assumptions
          (rules source.expanded target.expanded)

/-- The search down to a depth. Two things are left out: a bound that a host may put on the depth of
calls, and the short cut for a source and a target inside a comparison that are one and the same
object. At the root of a comparison this short cut is `checkSelf`. -/
def search (rules : Rules) (declarations : Declarations) : Nat → Judge
  | 0 => fun _ _ _ => .error .searchTooDeep
  | depth + 1 => judgeStep rules declarations (search rules declarations depth)

/-- A depth that every search stays within. No pair with a name is assumed twice on the way down, so
there are at most as many such pairs as pairs of types at hand, each as it is and expanded, and
between two of them the types get smaller. -/
def depthBound (declarations : Declarations) (source target : Ty) : Nat :=
  let size := 2 * (source.size + target.size + declarations.size)
  (size * size + 1) * (size + 1)

/-- The verdict on a source and a target under given rules, with nothing assumed. -/
def verdict (rules : Rules) (declarations : Declarations) (source target : Ty) :
    Except Fault Verdict :=
  (search rules declarations (depthBound declarations source target) source target []).map Prod.fst

/-- A type against itself fits, whatever is inside. -/
def checkSelf (type : Ty) : Except Fault Verdict :=
  match type.foreign? with
  | some v => .error (.notType v.kindName)
  | none => .ok .accepted

def refusalMessage (source target : Ty) (reason : Reason) (path : Path) : Except Fault String := do
  let sourceText ← source.renderLogged
  let targetText ← target.renderLogged
  return sourceText ++ " is not assignable to " ++ targetText ++ ": " ++ reason.name ++ " at " ++
    path.text

def log (source target : Ty) : Verdict → List Log.Entry
  | .accepted => []
  | .rejected path reason .. =>
    [⟨.debug, .assignability, refusalMessage source target reason path⟩]

end Assignability

namespace Setting

/-- Whether a value of the source type may stand where the target type is expected. The two are
taken to be different objects, as everything inside them is; `checkSelf` is for the same object.
The search goes as deep as it needs to, whatever depth of calls a host allows. -/
def check (setting : Setting) (source target : Ty) : Except Fault Verdict :=
  Assignability.verdict (Assignability.rule setting.policy) setting.declarations source target

end Setting

end StructuralTypes
