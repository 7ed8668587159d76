import StructuralTypes.Proofs.UnionTarget

/-!
What types stand for. Behind names and mapped types there is a structure, and assignability is a
relation between structures: the rules of one step decide it, and a relation that is supported by
these rules, or by assignability itself, holds of assignable types only.
-/

namespace StructuralTypes

namespace Declarations

/-- The structure behind a type: names are resolved, and a mapped type is taken as an object. -/
def StandsFor (d : Declarations) (t x : Ty) : Prop :=
  ∃ t', d.resolve t = .ok t' ∧ t'.foreign? = none ∧ x = t'.expanded

variable {d : Declarations} {t t' x x' : Ty}

theorem StandsFor.unique (h : d.StandsFor t x) (h' : d.StandsFor t x') : x = x' := by
  obtain ⟨r, hr, -, rfl⟩ := h
  obtain ⟨r', hr', -, rfl⟩ := h'
  rw [hr] at hr'
  cases hr'
  rfl

theorem standsFor_self (hnamed : t.isNamed = false) (hforeign : t.foreign? = none)
    (hmapped : ∀ entries, t ≠ .mapped entries) : d.StandsFor t t :=
  ⟨t, resolve_of_not_named hnamed, hforeign, (Ty.expanded_eq_self hmapped).symm⟩

theorem standsFor_union (members : List Ty) : d.StandsFor (.union members) (.union members) :=
  standsFor_self rfl rfl (by simp)

theorem StandsFor.isNamed_eq_false (h : d.StandsFor t x) : x.isNamed = false := by
  obtain ⟨r, hr, -, rfl⟩ := h
  rw [Ty.isNamed_expanded, isNamed_of_resolve hr]

theorem StandsFor.foreign?_eq_none (h : d.StandsFor t x) : x.foreign? = none := by
  obtain ⟨r, -, hforeign, rfl⟩ := h
  rw [Ty.foreign?_expanded, hforeign]

theorem StandsFor.native (h : d.StandsFor t x) : t.foreign? = none := by
  obtain ⟨r, hr, hforeign, -⟩ := h
  cases t with
  | foreign v =>
      cases hr
      exact hforeign
  | _ => rfl

theorem StandsFor.ne_mapped (h : d.StandsFor t x) (entries : List (String × Slot Ty)) :
    x ≠ .mapped entries := by
  obtain ⟨r, -, -, rfl⟩ := h
  exact r.expanded_ne_mapped entries

theorem StandsFor.self (h : d.StandsFor t x) : d.StandsFor x x :=
  standsFor_self h.isNamed_eq_false h.foreign?_eq_none h.ne_mapped

theorem StandsFor.of_resolve (h : d.StandsFor t x) (ht : d.resolve t = .ok t') :
    d.StandsFor t' x := by
  obtain ⟨r, hr, hforeign, rfl⟩ := h
  rw [hr] at ht
  cases ht
  exact ⟨t', resolve_of_not_named (isNamed_of_resolve hr), hforeign, rfl⟩

theorem StandsFor.of_resolved (ht : d.resolve t = .ok t') (h : d.StandsFor t' x) :
    d.StandsFor t x := by
  obtain ⟨r, hr, hforeign, rfl⟩ := h
  rw [resolve_of_not_named (isNamed_of_resolve ht)] at hr
  cases hr
  exact ⟨t', ht, hforeign, rfl⟩

theorem StandsFor.resolve_union {members : List Ty} (h : d.StandsFor t (.union members)) :
    d.resolve t = .ok (.union members) := by
  obtain ⟨r, hr, -, hexpanded⟩ := h
  cases r with
  | union ms =>
      cases hexpanded
      exact hr
  | _ => cases hexpanded

theorem StandsFor.resolve_primitive {name : String} (h : d.StandsFor t (.primitive name)) :
    d.resolve t = .ok (.primitive name) := by
  obtain ⟨r, hr, -, hexpanded⟩ := h
  cases r with
  | primitive n =>
      cases hexpanded
      exact hr
  | _ => cases hexpanded

theorem StandsFor.wellFormed (hd : d.WellFormed) (ht : t.WellFormed) (h : d.StandsFor t x) :
    x.WellFormed := by
  obtain ⟨r, hr, -, rfl⟩ := h
  exact (hd.resolve ht hr).expanded

end Declarations

namespace Assignability

open Declarations

variable {setting : Setting} {s t x y : Ty}

theorem assignable_iff_structures : Assignable setting s t ↔
    ∃ x y, setting.declarations.StandsFor s x ∧ setting.declarations.StandsFor t y ∧
      Fits setting.policy (Assignable setting) x y := by
  constructor
  · intro h
    -- a step from names leads to a pair of structures, whose own step is by the rules
    have hresolved : ∃ s' t', setting.declarations.resolve s = .ok s' ∧
        setting.declarations.resolve t = .ok t' ∧ Assignable setting s' t' := by
      cases assignable_iff_oneStep.mp h with
      | named _ _ _ hs' ht' h' => exact ⟨_, _, hs', ht', h'⟩
      | structural _ _ hsn htn _ =>
          exact ⟨s, t, resolve_of_not_named hsn, resolve_of_not_named htn, h⟩
    obtain ⟨s', t', hs', ht', h'⟩ := hresolved
    cases assignable_iff_oneStep.mp h' with
    | named _ _ hnamed =>
        rw [isNamed_of_resolve hs', isNamed_of_resolve ht'] at hnamed
        simp at hnamed
    | structural hfs hft _ _ hfits =>
        exact ⟨_, _, ⟨s', hs', hfs, rfl⟩, ⟨t', ht', hft, rfl⟩, hfits⟩
  · rintro ⟨x, y, hsx, hty, hfits⟩
    have hfs := hsx.native
    have hft := hty.native
    obtain ⟨s', hs', hfs', rfl⟩ := hsx
    obtain ⟨t', ht', hft', rfl⟩ := hty
    exact (assignable_iff_fits hfs hft hs' ht' hfs' hft').mpr hfits

/-- Assignability of two types in terms of the structures they stand for. -/
theorem assignable_iff_fits_structures (hs : setting.declarations.StandsFor s x)
    (ht : setting.declarations.StandsFor t y) :
    Assignable setting s t ↔ Fits setting.policy (Assignable setting) x y := by
  rw [assignable_iff_structures]
  constructor
  · rintro ⟨x', y', hs', ht', hfits⟩
    rwa [hs.unique hs', ht.unique ht']
  · exact fun hfits => ⟨x, y, hs, ht, hfits⟩

theorem assignable_source_iff (hs : setting.declarations.StandsFor s x) :
    Assignable setting x t ↔ Assignable setting s t := by
  simp only [assignable_iff_structures]
  constructor
  · rintro ⟨x', y, hx', hy, hfits⟩
    cases hs.self.unique hx'
    exact ⟨x, y, hs, hy, hfits⟩
  · rintro ⟨x', y, hx', hy, hfits⟩
    cases hs.unique hx'
    exact ⟨x, y, hs.self, hy, hfits⟩

theorem assignable_target_iff (ht : setting.declarations.StandsFor t y) :
    Assignable setting s y ↔ Assignable setting s t := by
  simp only [assignable_iff_structures]
  constructor
  · rintro ⟨x, y', hx, hy', hfits⟩
    cases ht.self.unique hy'
    exact ⟨x, y, hx, ht, hfits⟩
  · rintro ⟨x, y', hx, hy', hfits⟩
    cases ht.unique hy'
    exact ⟨x, y, hx, ht.self, hfits⟩

theorem fits_unknown_iff {policy : Policy} {R : Ty → Ty → Prop} :
    Fits policy R (.primitive "unknown") y ↔ y = .primitive "unknown" ∨ y = .primitive "any" := by
  constructor
  · intro h
    cases h with
    | equal h =>
        cases Ty.alike_of_beq h
        exact Or.inl rfl
    | always h => simpa [FitsAlways, or_comm] using h
    | kind _ hunknown _ => exact absurd rfl hunknown
  · rintro (rfl | rfl)
    · exact .always (by simp [FitsAlways])
    · exact .always (by simp [FitsAlways])

/-- A relation that the rules support, together with assignability, between the structures that its
types stand for. -/
def Supported (setting : Setting) (R : Ty → Ty → Prop) : Prop :=
  ∀ s t, R s t → ∃ x y, setting.declarations.StandsFor s x ∧ setting.declarations.StandsFor t y ∧
    Fits setting.policy (fun a b => R a b ∨ Assignable setting a b) x y

theorem Supported.assignable {R : Ty → Ty → Prop} (hR : Supported setting R) (h : R s t) :
    Assignable setting s t := by
  let Q : Ty → Ty → Prop := fun a b =>
    ∃ x y, setting.declarations.StandsFor a x ∧ setting.declarations.StandsFor b y ∧
      Fits setting.policy (fun a b => R a b ∨ Assignable setting a b) x y
  have hsub : ∀ a b, R a b ∨ Assignable setting a b → Q a b := by
    rintro a b (hab | hab)
    · exact hR a b hab
    · obtain ⟨x, y, hx, hy, hfits⟩ := assignable_iff_structures.mp hab
      exact ⟨x, y, hx, hy, hfits.mono fun _ _ => Or.inr⟩
  have hclosed : Closed setting Q := by
    rintro a b ⟨x, y, hx, hy, hfits⟩
    by_cases hnamed : a.isNamed = true ∨ b.isNamed = true
    · obtain ⟨a', ha', -⟩ := id hx
      obtain ⟨b', hb', -⟩ := id hy
      exact .named hx.native hy.native hnamed ha' hb'
        ⟨x, y, hx.of_resolve ha', hy.of_resolve hb', hfits⟩
    · rw [not_or, Bool.not_eq_true, Bool.not_eq_true] at hnamed
      have hnative := hx.native
      have hnative' := hy.native
      obtain ⟨a', ha', -, rfl⟩ := hx
      obtain ⟨b', hb', -, rfl⟩ := hy
      rw [resolve_of_not_named hnamed.1] at ha'
      rw [resolve_of_not_named hnamed.2] at hb'
      cases ha'
      cases hb'
      exact .structural hnative hnative' hnamed.1 hnamed.2 (hfits.mono hsub)
  exact hclosed.le_assignable (hR s t h)

section Parts

variable {policy : Policy} {R R' : Ty → Ty → Prop}

theorem ObjectFits.mono_parts {source target : ObjectTy}
    (hR : ∀ a ∈ source.toTy.parts, ∀ b ∈ target.toTy.parts, R a b → R' a b)
    (h : ObjectFits policy R source target) : ObjectFits policy R' source target := by
  obtain ⟨fields, index⟩ := source
  obtain ⟨fields', index'⟩ := target
  refine ⟨?_, ?_, ?_⟩
  · rintro ⟨name, t⟩ ht
    have hmem : t.type ∈ (Ty.object fields' index').parts := Ty.mem_parts_of_mem_fields ht
    cases h.fields _ ht with
    | @declared s hs fits =>
        have hmem' : s.type ∈ (Ty.object fields index).parts :=
          Ty.mem_parts_of_mem_fields (Assoc.mem_of_lookup hs)
        exact .declared hs ⟨hR _ hmem' _ hmem fits.1, fits.2⟩
    | absent hs optional => exact .absent hs optional
    | supplied hs hindex allowed hname fits =>
        cases hindex
        exact .supplied hs rfl allowed hname ⟨hR _ Ty.value_mem_parts _ hmem fits.1, fits.2⟩
  · rintro r' hr' ⟨name, s⟩ hs hnot hname
    cases hr'
    have hfits := h.extras r' rfl _ hs hnot hname
    exact ⟨hR _ (Ty.mem_parts_of_mem_fields hs) _ Ty.value_mem_parts hfits.1, hfits.2⟩
  · intro r' hr' r hr
    cases hr'
    cases hr
    obtain ⟨hcovers, hfits⟩ := h.index r' rfl r rfl
    exact ⟨hcovers, hR _ Ty.value_mem_parts _ Ty.value_mem_parts hfits.1, hfits.2⟩

theorem Fits.mono_parts (hR : ∀ a b, (a = x ∨ a ∈ x.parts) → (b = y ∨ b ∈ y.parts) → R a b → R' a b)
    (h : Fits policy R x y) : Fits policy R' x y := by
  cases h with
  | equal h => exact .equal h
  | always h => exact .always h
  | kind hnever hunknown h =>
      refine .kind hnever hunknown ?_
      cases h with
      | unionSource h =>
          exact .unionSource fun m hm => hR m y (Or.inr hm) (Or.inl rfl) (h m hm)
      | unionTarget hs hm h =>
          exact .unionTarget hs hm (hR x _ (Or.inl rfl) (Or.inr hm) h)
      | widening h => exact .widening h
      | array h =>
          exact .array ⟨hR _ _ (by simp [Ty.parts]) (by simp [Ty.parts]) h.1, h.2⟩
      | tupleArray h =>
          refine .tupleArray fun p hp => ⟨hR _ _ ?_ (by simp [Ty.parts]) (h p hp).1, (h p hp).2⟩
          exact Or.inr (List.mem_map_of_mem hp)
      | tuple least most h =>
          refine .tuple least most fun p hp => ⟨hR _ _ ?_ ?_ (h p hp).1, (h p hp).2⟩
          · exact Or.inr (List.mem_map_of_mem (List.of_mem_zip hp).1)
          · exact Or.inr (List.mem_map_of_mem (List.of_mem_zip hp).2)
      | object h =>
          exact .object (h.mono_parts fun a ha b hb => hR a b (Or.inr ha) (Or.inr hb))

end Parts

theorem Assignable.of_beq {s' t' : Ty} (hd : setting.declarations.WellFormed) (hs : s.WellFormed)
    (hs' : s'.WellFormed) (ht : t.WellFormed) (ht' : t'.WellFormed) (hss : s == s') (htt : t == t')
    (h : Assignable setting s t) : Assignable setting s' t' := by
  let Q : Ty → Ty → Prop := fun a' b' => a'.WellFormed ∧ b'.WellFormed ∧
    ∃ a b, a.WellFormed ∧ b.WellFormed ∧ a == a' ∧ b == b' ∧ Assignable setting a b
  have hrefl : ∀ a b, a.WellFormed → b.WellFormed → Assignable setting a b → Q a b :=
    fun a b ha hb hab => ⟨ha, hb, a, b, ha, hb, Ty.beq_refl ha, Ty.beq_refl hb, hab⟩
  have hrespects : Respects Q := by
    rintro a b ⟨-, -, c, e, hc, he, hca, heb, hce⟩ a' b' ha' hb' haa hbb
    exact ⟨ha', hb', c, e, hc, he, Ty.beq_trans hca haa, Ty.beq_trans heb hbb, hce⟩
  have hclosed : Closed setting Q := by
    rintro a' b' ⟨ha', hb', a, b, ha, hb, haa, hbb, hab⟩
    refine OneStep.of_beq hd hrespects ha ha' hb hb' haa hbb ?_
    cases closed_assignable setting a b hab with
    | named hfa hfb hnamed hra hrb h =>
        exact .named hfa hfb hnamed hra hrb (hrefl _ _ (hd.resolve ha hra) (hd.resolve hb hrb) h)
    | structural hfa hfb hna hnb hfits =>
        exact .structural hfa hfb hna hnb (hfits.mono_parts fun c e hc he =>
          hrefl c e (ha.expanded.self_or_part hc) (hb.expanded.self_or_part he))
  exact hclosed.le_assignable ⟨hs', ht', s, t, hs, ht, hss, htt, h⟩

end Assignability

end StructuralTypes
