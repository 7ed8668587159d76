import StructuralTypes.Assignability.Search
import StructuralTypes.Proofs.KeyDomain

/-!
Assignability as a relation. `OneStep` says what makes a source fit a target when the fits one level
down are given by a relation, with no assumptions anywhere; `Assignable` is the greatest relation
that keeps to it. The rules of the search decide `OneStep` level by level.
-/

namespace StructuralTypes.Assignability

section Rules

variable (policy : Policy) (R : Ty → Ty → Prop)

/-- A type behind a flag fits a type behind another: no readonly place fits a mutable one. -/
def ValueFits (source : Ty) (readonly : Bool) (target : Ty) (readonly' : Bool) : Prop :=
  R source target ∧ (readonly = true → readonly' = true)

/-- A slot fits a slot: moreover no optional place fits a required one. -/
def SlotFits (s t : Slot Ty) : Prop :=
  R s.type t.type ∧ (s.optional = true → t.optional = true) ∧
    (s.readonly = true → t.readonly = true)

/-- What a field of the target asks of a source object. -/
inductive FieldFits (source : ObjectTy) (name : String) (t : Slot Ty) : Prop
  | declared {s : Slot Ty} (h : source.get? name = some s) (fits : SlotFits R s t)
  | absent (h : source.get? name = none) (optional : t.optional = true)
  | supplied {r : IndexRule Ty} (h : source.get? name = none) (hindex : source.index = some r)
      (allowed : policy.indexSupplies = true) (hname : r.key.HasName name)
      (fits : ValueFits R r.value r.readonly t.type t.readonly)

/-- An object fits an object: field by field of the target, and where the target has an index rule,
the fields under it and the index rule of the source fit it. -/
structure ObjectFits (source target : ObjectTy) : Prop where
  fields : ∀ f ∈ target.fields, FieldFits policy R source f.1 f.2
  extras : ∀ r', target.index = some r' → ∀ f ∈ source.fields, target.contains f.1 = false →
    r'.key.HasName f.1 → ValueFits R f.2.type f.2.readonly r'.value r'.readonly
  index : ∀ r', target.index = some r' → ∀ r, source.index = some r →
    r.key.Covers r'.key ∧ ValueFits R r.value r.readonly r'.value r'.readonly

/-- The rules by the kinds of source and target. -/
inductive KindFits : Ty → Ty → Prop
  | unionSource {members : List Ty} {t : Ty} (h : ∀ m ∈ members, R m t) :
      KindFits (.union members) t
  | unionTarget {s m : Ty} {members : List Ty} (hs : ∀ members', s ≠ .union members')
      (hm : m ∈ members) (h : R s m) : KindFits s (.union members)
  | widening {l : Literal} (h : policy.widenLiterals = true) : KindFits (.literal l) (Ty.base l)
  | array {element element' : Ty} {readonly readonly' : Bool}
      (h : ValueFits R element readonly element' readonly') :
      KindFits (.array element readonly) (.array element' readonly')
  | tupleArray {elements : List (Slot Ty)} {element' : Ty} {readonly' : Bool}
      (h : ∀ s ∈ elements, ValueFits R s.type s.readonly element' readonly') :
      KindFits (.tuple elements) (.array element' readonly')
  | tuple {elements elements' : List (Slot Ty)}
      (least : leastLength policy elements' ≤ elements.length)
      (most : elements.length ≤ elements'.length)
      (h : ∀ p ∈ elements.zip elements', SlotFits R p.1 p.2) :
      KindFits (.tuple elements) (.tuple elements')
  | object {fields fields' : List (String × Slot Ty)} {index index' : Option (IndexRule Ty)}
      (h : ObjectFits policy R ⟨fields, index⟩ ⟨fields', index'⟩) :
      KindFits (.object fields index) (.object fields' index')

/-- The pairs that fit whatever is inside: "any" on either side, "unknown" as a target and "never"
as a source. -/
def FitsAlways (s t : Ty) : Prop :=
  t = .primitive "any" ∨ t = .primitive "unknown" ∨ s = .primitive "any" ∨ s = .primitive "never"

/-- The rules for a source and a target that are neither names nor mapped types. -/
inductive Fits : Ty → Ty → Prop
  | equal {s t : Ty} (h : s == t) : Fits s t
  | always {s t : Ty} (h : FitsAlways s t) : Fits s t
  | kind {s t : Ty} (hnever : t ≠ .primitive "never") (hunknown : s ≠ .primitive "unknown")
      (h : KindFits policy R s t) : Fits s t

/-- Types with nothing inside. -/
def isAtom : Ty → Bool
  | .primitive _ => true
  | .literal _ => true
  | _ => false

/-- The rules without the one for equal types, which only the types with nothing inside keep. -/
inductive FitsByParts : Ty → Ty → Prop
  | atom {s t : Ty} (hatom : isAtom s = true) (h : s == t) : FitsByParts s t
  | always {s t : Ty} (h : FitsAlways s t) : FitsByParts s t
  | kind {s t : Ty} (hnever : t ≠ .primitive "never") (hunknown : s ≠ .primitive "unknown")
      (h : KindFits policy R s t) : FitsByParts s t

end Rules

/-- One step of assignability: names are resolved on both sides, mapped types are expanded. -/
inductive OneStep (setting : Setting) (R : Ty → Ty → Prop) : Ty → Ty → Prop
  | named {s t s' t' : Ty} (hs : s.foreign? = none) (ht : t.foreign? = none)
      (hnamed : s.isNamed = true ∨ t.isNamed = true)
      (hs' : setting.declarations.resolve s = .ok s')
      (ht' : setting.declarations.resolve t = .ok t') (h : R s' t') : OneStep setting R s t
  | structural {s t : Ty} (hs : s.foreign? = none) (ht : t.foreign? = none)
      (hsn : s.isNamed = false) (htn : t.isNamed = false)
      (h : Fits setting.policy R s.expanded t.expanded) : OneStep setting R s t

/-- A relation in which every pair is supported by one step. -/
def Closed (setting : Setting) (R : Ty → Ty → Prop) : Prop :=
  ∀ s t, R s t → OneStep setting R s t

/-- Assignability: the greatest closed relation. -/
def Assignable (setting : Setting) (s t : Ty) : Prop :=
  ∃ R, Closed setting R ∧ R s t

section Mono

variable {policy : Policy} {R R' : Ty → Ty → Prop}

theorem ValueFits.mono (hR : ∀ s t, R s t → R' s t) {s t : Ty} {readonly readonly' : Bool}
    (h : ValueFits R s readonly t readonly') : ValueFits R' s readonly t readonly' :=
  ⟨hR s t h.1, h.2⟩

theorem SlotFits.mono (hR : ∀ s t, R s t → R' s t) {s t : Slot Ty} (h : SlotFits R s t) :
    SlotFits R' s t :=
  ⟨hR _ _ h.1, h.2⟩

theorem FieldFits.mono (hR : ∀ s t, R s t → R' s t) {source : ObjectTy} {name : String}
    {t : Slot Ty} (h : FieldFits policy R source name t) : FieldFits policy R' source name t := by
  cases h with
  | declared h fits => exact .declared h (fits.mono hR)
  | absent h optional => exact .absent h optional
  | supplied h hindex allowed hname fits => exact .supplied h hindex allowed hname (fits.mono hR)

theorem ObjectFits.mono (hR : ∀ s t, R s t → R' s t) {source target : ObjectTy}
    (h : ObjectFits policy R source target) : ObjectFits policy R' source target where
  fields f hf := (h.fields f hf).mono hR
  extras r' hr' f hf hnot hname := (h.extras r' hr' f hf hnot hname).mono hR
  index r' hr' r hr := ⟨(h.index r' hr' r hr).1, (h.index r' hr' r hr).2.mono hR⟩

theorem KindFits.mono (hR : ∀ s t, R s t → R' s t) {s t : Ty} (h : KindFits policy R s t) :
    KindFits policy R' s t := by
  cases h with
  | unionSource h => exact .unionSource fun m hm => hR _ _ (h m hm)
  | unionTarget hs hm h => exact .unionTarget hs hm (hR _ _ h)
  | widening h => exact .widening h
  | array h => exact .array (h.mono hR)
  | tupleArray h => exact .tupleArray fun s hs => (h s hs).mono hR
  | tuple least most h => exact .tuple least most fun p hp => (h p hp).mono hR
  | object h => exact .object (h.mono hR)

theorem Fits.mono (hR : ∀ s t, R s t → R' s t) {s t : Ty} (h : Fits policy R s t) :
    Fits policy R' s t := by
  cases h with
  | equal h => exact .equal h
  | always h => exact .always h
  | kind hnever hunknown h => exact .kind hnever hunknown (h.mono hR)

theorem FitsByParts.fits {s t : Ty} (h : FitsByParts policy R s t) : Fits policy R s t := by
  cases h with
  | atom _ h => exact .equal h
  | always h => exact .always h
  | kind hnever hunknown h => exact .kind hnever hunknown h

theorem Fits.equal_or_byParts {s t : Ty} (h : Fits policy R s t) :
    s == t ∨ FitsByParts policy R s t := by
  cases h with
  | equal h => exact Or.inl h
  | always h => exact Or.inr (.always h)
  | kind hnever hunknown h => exact Or.inr (.kind hnever hunknown h)

theorem OneStep.mono {setting : Setting} (hR : ∀ s t, R s t → R' s t) {s t : Ty}
    (h : OneStep setting R s t) : OneStep setting R' s t := by
  cases h with
  | named hs ht hnamed hs' ht' h => exact .named hs ht hnamed hs' ht' (hR _ _ h)
  | structural hs ht hsn htn h => exact .structural hs ht hsn htn (h.mono hR)

end Mono

theorem Closed.le_assignable {setting : Setting} {R : Ty → Ty → Prop} (hR : Closed setting R)
    {s t : Ty} (h : R s t) : Assignable setting s t :=
  ⟨R, hR, h⟩

theorem closed_assignable (setting : Setting) : Closed setting (Assignable setting) := by
  rintro s t ⟨R, hR, h⟩
  exact (hR s t h).mono fun s' t' h' => hR.le_assignable h'

theorem isGreatest_assignable (setting : Setting) :
    IsGreatest {R | Closed setting R} (Assignable setting) :=
  ⟨closed_assignable setting, fun _ hR _ _ h => Closed.le_assignable hR h⟩

theorem assignable_iff_oneStep {setting : Setting} {s t : Ty} :
    Assignable setting s t ↔ OneStep setting (Assignable setting) s t := by
  constructor
  · exact closed_assignable setting s t
  · intro h
    refine ⟨OneStep setting (Assignable setting), ?_, h⟩
    intro s' t' h'
    exact h'.mono (closed_assignable setting)

end StructuralTypes.Assignability
