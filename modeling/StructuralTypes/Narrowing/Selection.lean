import StructuralTypes.Narrowing.Test
import StructuralTypes.Narrowing.Alternatives
import StructuralTypes.Assignability.Search

namespace StructuralTypes

inductive Failure where
  | ambiguous
  | noMatch
  | missingTag
  | tagAvailable
  deriving DecidableEq

namespace Failure

def name : Failure → String
  | .ambiguous => "AMBIGUOUS"
  | .noMatch => "NO_MATCH"
  | .missingTag => "MISSING_DISCRIMINANT"
  | .tagAvailable => "TAG_DISCRIMINANT_AVAILABLE"

end Failure

/-- The outcome of narrowing: an alternative with its place, or a failure with the places of the
alternatives that it is about. -/
inductive Selection where
  | chosen (member : Ty) (index : Nat)
  | failed (failure : Failure) (candidates : List Nat)

/-- An object that a type may be seen as requires a field. -/
def requiresField (view : Option ObjectTy) (name : String) : Bool :=
  match view.bind (·.get? name) with
  | some slot => !slot.optional
  | none => false

namespace Ty

def literal? : Ty → Option Literal
  | .literal l => some l
  | _ => none

end Ty

namespace Declarations

def resolveEach (d : Declarations) : List Ty → Except Fault (List Ty)
  | [] => .ok []
  | type :: rest =>
    match d.resolve type with
    | .error fault => .error fault
    | .ok t => (d.resolveEach rest).map (t :: ·)

/-- The literals that a type allows, if it stands for a literal or a union of literals. -/
def literals? (d : Declarations) (type : Ty) : Except Fault (Option (List Literal)) :=
  match d.resolve type with
  | .error fault => .error fault
  | .ok (.literal l) => .ok (some [l])
  | .ok (.union members) => (d.resolveEach members).map fun ts => ts.mapM Ty.literal?
  | .ok _ => .ok none

/-- The literals that the tag field of an object allows, if it has such a field. -/
def tagLiterals? (d : Declarations) (view : Option ObjectTy) (name : String) :
    Except Fault (Option (List Literal)) :=
  match view.bind (·.get? name) with
  | some slot => if slot.optional then .ok none else d.literals? slot.type
  | none => .ok none

def tagsEach (d : Declarations) (name : String) :
    List (Option ObjectTy) → Except Fault (List (Option (List Literal)))
  | [] => .ok []
  | view :: rest =>
    match d.tagLiterals? view name with
    | .error fault => .error fault
    | .ok tags => (d.tagsEach name rest).map (tags :: ·)

/-- Whether all of several objects have a tag field; they are looked at in order until one has
none. -/
def allTagged (d : Declarations) (name : String) : List (Option ObjectTy) → Except Fault Bool
  | [] => .ok true
  | view :: rest =>
    match d.tagLiterals? view name with
    | .error fault => .error fault
    | .ok none => .ok false
    | .ok (some _) => d.allTagged name rest

/-- The names, of those given, that are tags of all the objects. -/
def tagsAmong (d : Declarations) (views : List (Option ObjectTy)) :
    List String → Except Fault (List String)
  | [] => .ok []
  | name :: rest =>
    match d.allTagged name views with
    | .error fault => .error fault
    | .ok true => (d.tagsAmong views rest).map (name :: ·)
    | .ok false => d.tagsAmong views rest

/-- The names of the tag fields that all alternatives of a type share, in the order of the first
alternative. A type without alternatives has no first one. -/
def tagNames (d : Declarations) (type : Ty) : Except Fault (List String) :=
  match d.alternatives type with
  | .error fault => .error fault
  | .ok members =>
    match d.objectViews members with
    | .error fault => .error fault
    | .ok [] => .error .noAlternative
    | .ok (none :: _) => .ok []
    | .ok (some first :: rest) => d.tagsAmong (some first :: rest) first.names

end Declarations

namespace Narrowing

/-- The places, counted from `start`, of the items that pass a test. -/
def placesFrom {α : Type} (p : α → Bool) : Nat → List α → List Nat
  | _, [] => []
  | i, a :: rest => if p a then i :: placesFrom p (i + 1) rest else placesFrom p (i + 1) rest

def places {α : Type} (p : α → Bool) (items : List α) : List Nat :=
  placesFrom p 0 items

/-- The only matching alternative; several are ambiguous. -/
def single (members : List Ty) (matching : List Nat) : Selection :=
  match matching with
  | [] => .failed .noMatch []
  | [i] =>
    match members[i]? with
    | some member => .chosen member i
    | none => .failed .noMatch []
  | several => .failed .ambiguous several

/-- Selects by tags, which every alternative must have. -/
def selectByTags (members : List Ty) (tags : List (Option (List Literal))) (wanted : Literal) :
    Selection :=
  match places Option.isNone tags with
  | [] =>
    single members (places (fun t => (t.getD []).any fun l => l.same wanted) tags)
  | untagged => .failed .missingTag untagged

def selectByPresence (members : List Ty) (views : List (Option ObjectTy)) (field : String) :
    Selection :=
  single members (places (fun view => requiresField view field) views)

/-- A test is certainly true of an alternative: its tag allows only the value, or it requires the
field. -/
def certain (d : Declarations) (test : Test) (view : Option ObjectTy) : Except Fault Bool :=
  match test with
  | .tag field wanted =>
    (d.tagLiterals? view field).map fun tags =>
      match tags with
      | some (l :: rest) => (l :: rest).all fun l => l.same wanted
      | _ => false
  | .present field => .ok (requiresField view field)

def uncertain (d : Declarations) (test : Test) : List Ty → Except Fault (List Ty)
  | [] => .ok []
  | member :: rest =>
    match d.objectView member with
    | .error fault => .error fault
    | .ok view =>
      match certain d test view with
      | .error fault => .error fault
      | .ok true => uncertain d test rest
      | .ok false => (uncertain d test rest).map (member :: ·)

/-- What is known after narrowing: the outcome, and the names of the tags when a test for presence
was refused because of them. -/
structure Outcome where
  selection : Selection
  refusedFor : List String := []

/-- The tags for which a test for presence is refused: those of a type with several alternatives,
when the policy insists on tags. -/
def refusalTags (setting : Setting) (type : Ty) (members : List Ty) : Except Fault (List String) :=
  if setting.policy.enforceTags && decide (1 < members.length) then
    setting.declarations.tagNames type
  else .ok []

/-- Narrows a type by a test, and says for which tags it refused to. -/
def outcome (setting : Setting) (type : Ty) (test : Test) : Except Fault Outcome :=
  match setting.declarations.alternatives type with
  | .error fault => .error fault
  | .ok members =>
    match setting.declarations.objectViews members with
    | .error fault => .error fault
    | .ok views =>
      match test with
      | .tag field wanted =>
        (setting.declarations.tagsEach field views).map fun tags =>
          ⟨selectByTags members tags wanted, []⟩
      | .present field =>
        (refusalTags setting type members).map fun tags =>
          match tags with
          | [] => ⟨selectByPresence members views field, []⟩
          | name :: rest => ⟨.failed .tagAvailable [], name :: rest⟩

def selectionMessage (type : Ty) (test : Test) (selection : Selection) : Except Fault String :=
  type.renderLogged.map fun text =>
    match selection with
    | .chosen _ index =>
      "Narrowed " ++ text ++ " on " ++ test.text ++ " to member " ++ Nat.repr index
    | .failed failure _ =>
      "Narrowing " ++ text ++ " on " ++ test.text ++ " failed: " ++ failure.name

def log (type : Ty) (test : Test) (o : Outcome) : Log.Entry :=
  ⟨.debug, .narrowing,
    match o.refusedFor with
    | [] => selectionMessage type test o.selection
    | tags => .ok ("Presence narrowing refused, tags available: " ++ Text.joined ", " tags)⟩

end Narrowing

namespace Setting

/-- Selects the one alternative for which a test can be true. -/
def select (setting : Setting) (type : Ty) (test : Test) : Except Fault Selection :=
  (Narrowing.outcome setting type test).map Narrowing.Outcome.selection

end Setting

namespace Declarations

/-- What is left of a type where a test is false: a union, a single alternative, or nothing. -/
def remainder (d : Declarations) (type : Ty) (test : Test) : Except Fault (Option Ty) :=
  match d.alternatives type with
  | .error fault => .error fault
  | .ok members =>
    match Narrowing.uncertain d test members with
    | .error fault => .error fault
    | .ok [] => .ok none
    | .ok left => (Ty.flatUnion left).map some

end Declarations

end StructuralTypes
