import StructuralTypes.Proofs.Structure

namespace StructuralTypes

/-- Every switch of assignability that is on in one policy is on in the other. -/
structure Policy.Relaxes (policy strict : Policy) : Prop where
  widenLiterals : strict.widenLiterals = true → policy.widenLiterals = true
  indexSupplies : strict.indexSupplies = true → policy.indexSupplies = true
  shortTuples : strict.shortTuples = true → policy.shortTuples = true

/-- Policies that differ in the switch for tags at most. -/
structure Policy.SameButTags (policy policy' : Policy) : Prop where
  widenLiterals : policy.widenLiterals = policy'.widenLiterals
  indexSupplies : policy.indexSupplies = policy'.indexSupplies
  shortTuples : policy.shortTuples = policy'.shortTuples

namespace Assignability

section Rules

variable {policy strict : Policy} {R : Ty → Ty → Prop}

theorem leastLength_le_of_relaxes (h : policy.Relaxes strict) (elements : List (Slot Ty)) :
    leastLength policy elements ≤ leastLength strict elements := by
  cases hstrict : strict.shortTuples with
  | true =>
      have hpolicy := h.shortTuples hstrict
      simp [leastLength, hstrict, hpolicy]
  | false =>
      have hlength : leastLength strict elements = elements.length := by simp [leastLength, hstrict]
      rw [hlength]
      exact leastLength_le_length policy elements

theorem FieldFits.relax (h : policy.Relaxes strict) {source : ObjectTy} {name : String}
    {t : Slot Ty} (hfits : FieldFits strict R source name t) :
    FieldFits policy R source name t := by
  cases hfits with
  | declared hs fits => exact .declared hs fits
  | absent hs optional => exact .absent hs optional
  | supplied hs hindex allowed hname fits =>
      exact .supplied hs hindex (h.indexSupplies allowed) hname fits

theorem KindFits.relax (h : policy.Relaxes strict) {s t : Ty} (hfits : KindFits strict R s t) :
    KindFits policy R s t := by
  cases hfits with
  | unionSource hall => exact .unionSource hall
  | unionTarget hs hm hfits => exact .unionTarget hs hm hfits
  | widening allowed => exact .widening (h.widenLiterals allowed)
  | array hfits => exact .array hfits
  | tupleArray hall => exact .tupleArray hall
  | tuple least most hall => exact .tuple ((leastLength_le_of_relaxes h _).trans least) most hall
  | object hfits =>
      exact .object ⟨fun f hf => (hfits.fields f hf).relax h, hfits.extras, hfits.index⟩

theorem Fits.relax (h : policy.Relaxes strict) {s t : Ty} (hfits : Fits strict R s t) :
    Fits policy R s t := by
  cases hfits with
  | equal hbeq => exact .equal hbeq
  | always halways => exact .always halways
  | kind hnever hunknown hfits => exact .kind hnever hunknown (hfits.relax h)

theorem rule_eq_of_sameButTags {policy' : Policy} (h : policy.SameButTags policy') :
    rule policy = rule policy' := by
  obtain ⟨widenLiterals, indexSupplies, shortTuples, enforceTags⟩ := policy
  obtain ⟨widenLiterals', indexSupplies', shortTuples', enforceTags'⟩ := policy'
  obtain ⟨rfl, rfl, rfl⟩ := h
  funext s t
  rfl

end Rules

section Check

variable {declarations : Declarations} {policy strict : Policy} {s t : Ty}

theorem Closed.relax (h : policy.Relaxes strict) {R : Ty → Ty → Prop}
    (hR : Closed ⟨strict, declarations⟩ R) : Closed ⟨policy, declarations⟩ R := by
  intro s t hst
  cases hR s t hst with
  | named hs ht hnamed hs' ht' h' => exact .named hs ht hnamed hs' ht' h'
  | structural hs ht hsn htn hfits => exact .structural hs ht hsn htn (hfits.relax h)

/-- What is accepted under a policy is accepted under every more relaxed one, and the switch for
tags changes no verdict. -/
theorem check_relaxed (hd : declarations.WellFormed) (hs : s.WellFormed) (ht : t.WellFormed) :
    (policy.Relaxes strict → Setting.check ⟨strict, declarations⟩ s t = .ok .accepted →
      ∀ v, Setting.check ⟨policy, declarations⟩ s t = .ok v → v.isAccepted = true) ∧
    (policy.SameButTags strict →
      Setting.check ⟨policy, declarations⟩ s t = Setting.check ⟨strict, declarations⟩ s t) := by
  constructor
  · intro hrelaxes haccepted v h
    obtain ⟨R, hR, hst⟩ := (isAccepted_iff_assignable hd hs ht haccepted).mp rfl
    exact (isAccepted_iff_assignable hd hs ht h).mpr ⟨R, hR.relax hrelaxes, hst⟩
  · intro hsame
    unfold Setting.check
    rw [rule_eq_of_sameButTags hsame]

/-- Lists without an end. Letters fit the second member of texts, and the first as well when
literals widen. -/
def letters : Declarations :=
  .ofList [
    ("Letters", .object [("head", ⟨.literal (.text "a"), false, false⟩),
      ("tail", ⟨.named "Letters", false, false⟩)] none),
    ("Texts", .union [
      .object [("head", ⟨.string, false, false⟩), ("tail", ⟨.named "Texts", false, false⟩)] none,
      .object [("head", ⟨.literal (.text "a"), false, false⟩),
        ("tail", ⟨.named "Texts", false, false⟩)] none])]

theorem check_relaxed_letters :
    Policy.Relaxes {} { widenLiterals := false, shortTuples := false } ∧
      ∃ v, Setting.check ⟨{}, letters⟩ (.named "Letters") (.named "Texts") = .ok v ∧
        v.isAccepted = true ∧
        Setting.check ⟨{}, letters⟩ (.named "Letters") (.named "Texts") = Setting.check
          ⟨{ enforceTags := false }, letters⟩ (.named "Letters") (.named "Texts") := by
  have hrelaxes : Policy.Relaxes {} { widenLiterals := false, shortTuples := false } :=
    ⟨by simp, by simp, by simp⟩
  have hstrict : Setting.check ⟨{ widenLiterals := false, shortTuples := false }, letters⟩
      (.named "Letters") (.named "Texts") = .ok .accepted := rfl
  have hv : ∃ v, Setting.check ⟨{}, letters⟩ (.named "Letters") (.named "Texts") = .ok v :=
    ⟨_, rfl⟩
  obtain ⟨v, hv⟩ := hv
  have hd : letters.WellFormed := by decide
  refine ⟨hrelaxes, v, hv, ?_, ?_⟩
  · exact (check_relaxed hd (by decide) (by decide)).1 hrelaxes hstrict v hv
  · exact (check_relaxed hd (by decide) (by decide)).2 ⟨rfl, rfl, rfl⟩

end Check

end Assignability

end StructuralTypes
