import StructuralTypes.Proofs.KeyDomain

namespace StructuralTypes

namespace Key

theorem isNumeric_ofList {text : List Char} (h : '\n' ∉ text) :
    isNumeric (String.ofList text) = isNumeral text := by
  have hlast : text.getLast? ≠ some '\n' := fun hlast => h (List.mem_of_getLast? hlast)
  rw [isNumeric, String.toList_ofList, withoutNewline, if_neg hlast]

theorem infinite_numeric : {name | isNumeric name = true}.Infinite := by
  refine Set.infinite_of_injective_forall_mem
    (f := fun k : Nat => String.ofList ('0' :: '.' :: '0' :: List.replicate k '0')) ?_ fun k => ?_
  · intro k k' h
    simpa using congrArg String.length h
  · rw [Set.mem_ofPred_eq, isNumeric_ofList (by simp)]
    simp [isNumeral, isUnsigned, isFraction]

theorem infinite_not_numeric : {name | isNumeric name = false}.Infinite := by
  refine Set.infinite_of_injective_forall_mem
    (f := fun k : Nat => String.ofList ('a' :: List.replicate k 'a')) ?_ fun k => ?_
  · intro k k' h
    simpa using congrArg String.length h
  · rw [Set.mem_ofPred_eq, isNumeric_ofList (by simp)]
    simp [isNumeral, isUnsigned]

end Key

namespace Ty

section Leaves

variable {key wider narrower : Ty} {name : String}

theorem finite_literalNames (key : Ty) :
    {name | ∃ l, Leaf (.literal l) key ∧ l.keyText = name}.Finite := by
  have hfinite : {l | Ty.literal l ∈ key.inside}.Finite := by
    apply (List.finite_toSet key.inside).preimage
    intro l _ m _ h
    exact Ty.literal.inj h
  refine (hfinite.image Literal.keyText).subset ?_
  rintro name ⟨l, hl, rfl⟩
  exact ⟨l, hl.mem_inside, rfl⟩

/-- A key type that has infinitely many names has one of them by a primitive leaf. -/
theorem exists_primitive_leaf {names : Set String} (hinfinite : names.Infinite)
    (h : ∀ name ∈ names, key.HasName name) :
    ∃ p, Leaf (.primitive p) key ∧ ∃ name ∈ names, LeafHasName name (.primitive p) := by
  obtain ⟨name, hname, hnew⟩ := hinfinite.exists_notMem_finite (finite_literalNames key)
  obtain ⟨leaf, hleaf, hhas⟩ := h name hname
  cases leaf with
  | primitive p => exact ⟨p, hleaf, name, hname, hhas⟩
  | literal l => exact absurd ⟨l, hleaf, hhas⟩ hnew
  | _ => cases hhas

theorem LeafCovers.hasName (h : LeafCovers wider narrower) (hname : LeafHasName name narrower) :
    LeafHasName name wider := by
  cases wider with
  | primitive p =>
      rcases h with hstring | ⟨hnumber, hcover⟩
      · exact Or.inl hstring
      · refine Or.inr ⟨hnumber, ?_⟩
        cases narrower with
        | primitive q =>
            rcases hname with hq | ⟨-, hnumeric⟩
            · simp only [NumbersCover, hq, String.reduceEq] at hcover
            · exact hnumeric
        | literal m =>
            rw [← show m.keyText = name from hname]
            exact hcover
        | _ => cases hcover
  | literal l =>
      cases narrower with
      | literal m => exact Eq.trans h hname
      | _ => cases h
  | _ => cases h

theorem exists_leaf_covers {leaf : Ty} (hdomain : leaf.isKeyDomain = true)
    (hunion : ∀ members, leaf ≠ .union members)
    (h : ∀ name, LeafHasName name leaf → wider.HasName name) :
    ∃ w, Leaf w wider ∧ LeafCovers w leaf := by
  cases leaf with
  | primitive p =>
      have hp : p = "string" ∨ p = "number" := by simpa [isKeyDomain] using hdomain
      rcases hp with rfl | rfl
      · -- a name that spells no number is had by "string" only
        obtain ⟨q, hq, name, hname, hhas⟩ := exists_primitive_leaf Key.infinite_not_numeric
          fun name _ => h name (Or.inl rfl)
        refine ⟨.primitive q, hq, ?_⟩
        rcases hhas with hstring | ⟨-, hnumeric⟩
        · exact Or.inl hstring
        · exact absurd hnumeric (Bool.eq_false_iff.mp hname)
      · obtain ⟨q, hq, name, -, hhas⟩ := exists_primitive_leaf Key.infinite_numeric
          fun name hname => h name (Or.inr ⟨rfl, hname⟩)
        refine ⟨.primitive q, hq, ?_⟩
        rcases hhas with hstring | ⟨hnumber, -⟩
        · exact Or.inl hstring
        · exact Or.inr ⟨hnumber, rfl⟩
  | literal l =>
      obtain ⟨w, hw, hhas⟩ := h l.keyText rfl
      refine ⟨w, hw, ?_⟩
      cases w with
      | primitive q => exact hhas
      | literal m => exact hhas
      | _ => cases hhas
  | union members => exact absurd rfl (hunion members)
  | _ => cases hdomain

theorem covers_iff_hasName (hn : narrower.isKeyDomain = true) :
    wider.Covers narrower ↔ ∀ name, narrower.HasName name → wider.HasName name := by
  constructor
  · rintro hcovers name ⟨n, hleaf, hname⟩
    obtain ⟨w, hw, hwn⟩ := hcovers n hleaf
    exact ⟨w, hw, hwn.hasName hname⟩
  · intro h n hleaf
    exact exists_leaf_covers (hleaf.isKeyDomain hn) hleaf.ne_union
      fun name hname => h name ⟨n, hleaf, hname⟩

end Leaves

section Tests

variable {key wider narrower : Ty} {name : String}

/-- Every integer in a key type has the range of binary numbers. -/
def IntegersInRange (key : Ty) : Prop :=
  ∀ n, Leaf (.literal (.number (.int n))) key → n.natAbs < Binary64.integerLimit

theorem IntegersInRange.keyFault? (h : key.IntegersInRange) {l : Literal}
    (hl : Leaf (.literal l) key) : l.keyFault? = none := by
  unfold Literal.keyFault?
  split
  · exact if_pos (h _ hl)
  · rfl

theorem IntegersInRange.inDomain_iff (h : key.IntegersInRange) :
    key.inDomain name = .ok true ↔ key.HasName name := by
  cases hdomain : key.inDomain name with
  | error fault =>
      obtain ⟨l, hl, hfault⟩ := inDomain_eq_error hdomain
      rw [h.keyFault? hl] at hfault
      cases hfault
  | ok b => rw [← inDomain_eq_ok hdomain, Except.ok.injEq]

theorem IntegersInRange.exists_covers (hw : wider.IntegersInRange)
    (hn : narrower.IntegersInRange) : ∃ b, wider.covers narrower = .ok b := by
  cases hcovers : wider.covers narrower with
  | error fault =>
      obtain ⟨l, hl | hl, hfault⟩ := covers_eq_error hcovers
      · rw [hw.keyFault? hl] at hfault
        cases hfault
      · rw [hn.keyFault? hl] at hfault
        cases hfault
  | ok b => exact ⟨b, rfl⟩

/-- One key type covers another exactly when every name in the domain of the other is in its own. -/
theorem covers_decides_inclusion (hn : narrower.isKeyDomain = true) (hw' : wider.IntegersInRange)
    (hn' : narrower.IntegersInRange) :
    ∃ b, wider.covers narrower = .ok b ∧
      (b = true ↔
        ∀ name, narrower.inDomain name = .ok true → wider.inDomain name = .ok true) := by
  obtain ⟨b, hb⟩ := hw'.exists_covers hn'
  refine ⟨b, hb, ?_⟩
  simp only [covers_eq_ok hb, covers_iff_hasName hn, hw'.inDomain_iff, hn'.inDomain_iff]

/-- All numbers, and two names that are none. -/
def switches : Ty :=
  .union [.number, .union [.literal (.text "on"), .literal (.text "off")]]

/-- Numbers in several spellings, one with a newline behind it, and a name. -/
def readings : Ty :=
  .union [.literal (.number (.float (.zero true))),
    .union [.literal (.text "7\n"), .literal (.number (.int 12)), .literal (.text "on")]]

theorem covers_decides_inclusion_readings :
    (∀ name, readings.inDomain name = .ok true → switches.inDomain name = .ok true) ∧
      ¬ ∀ name, switches.inDomain name = .ok true → readings.inDomain name = .ok true := by
  have hswitches : switches.IntegersInRange := by
    intro n hn
    simp [switches, number, leaf_union_iff, leaf_iff_eq] at hn
  have hreadings : readings.IntegersInRange := by
    intro n hn
    have hn' : n = 12 := by simpa [readings, leaf_union_iff, leaf_iff_eq] using hn
    rw [hn']
    decide +kernel
  constructor
  · obtain ⟨b, hb, hiff⟩ := covers_decides_inclusion rfl hswitches hreadings
    have hcovers : (switches.covers readings).toOption = some true := by decide +kernel
    rw [hb] at hcovers
    exact hiff.mp (Option.some.inj hcovers)
  · obtain ⟨b, hb, hiff⟩ := covers_decides_inclusion rfl hreadings hswitches
    have hcovers : (readings.covers switches).toOption = some false := by decide +kernel
    rw [hb] at hcovers
    exact fun h => Bool.false_ne_true ((Option.some.inj hcovers).symm.trans (hiff.mpr h))

end Tests

end Ty

end StructuralTypes
