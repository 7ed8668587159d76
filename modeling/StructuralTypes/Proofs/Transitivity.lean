import StructuralTypes.Proofs.Plain

namespace StructuralTypes.Assignability

open Declarations

section Composition

variable {policy : Policy} {R R' Q : Ty → Ty → Prop}

theorem ValueFits.comp {s t u : Ty} {readonly readonly' readonly'' : Bool}
    (hQ : R s t → R' t u → Q s u) (h : ValueFits R s readonly t readonly')
    (h' : ValueFits R' t readonly' u readonly'') : ValueFits Q s readonly u readonly'' :=
  ⟨hQ h.1 h'.1, fun hreadonly => h'.2 (h.2 hreadonly)⟩

theorem SlotFits.comp {s t u : Slot Ty} (hQ : R s.type t.type → R' t.type u.type → Q s.type u.type)
    (h : SlotFits R s t) (h' : SlotFits R' t u) : SlotFits Q s u :=
  ⟨hQ h.1 h'.1, fun hoptional => h'.2.1 (h.2.1 hoptional),
    fun hreadonly => h'.2.2 (h.2.2 hreadonly)⟩

theorem ObjectFits.comp {source middle target : ObjectTy} (hmiddle : middle.toTy.Plain)
    (htarget : target.toTy.Plain)
    (hQ : ∀ a ∈ source.toTy.parts, ∀ b ∈ middle.toTy.parts, ∀ c ∈ target.toTy.parts,
      R a b → R' b c → Q a c)
    (h : ObjectFits policy R source middle) (h' : ObjectFits policy R' middle target) :
    ObjectFits policy Q source target := by
  obtain ⟨fields, index⟩ := source
  obtain ⟨fields', index'⟩ := middle
  obtain ⟨fields'', index''⟩ := target
  have hindex' : index' = none := Option.isNone_iff_eq_none.mp hmiddle.2
  have hindex'' : index'' = none := Option.isNone_iff_eq_none.mp htarget.2
  subst hindex' hindex''
  refine ⟨?_, by simp, by simp⟩
  rintro ⟨name, u⟩ hu
  have hmem'' : u.type ∈ (Ty.object fields'' none).parts := Ty.mem_parts_of_mem_fields hu
  have hrequired : u.optional = false := htarget.1 _ hu
  cases h'.fields _ hu with
  | @declared t ht fits' =>
      have ht' := Assoc.mem_of_lookup ht
      have hmem' : t.type ∈ (Ty.object fields' none).parts := Ty.mem_parts_of_mem_fields ht'
      cases h.fields _ ht' with
      | @declared s hs fits =>
          have hmem : s.type ∈ (Ty.object fields index).parts :=
            Ty.mem_parts_of_mem_fields (Assoc.mem_of_lookup hs)
          exact .declared hs (fits.comp (hQ _ hmem _ hmem' _ hmem'') fits')
      | absent _ hoptional =>
          have hoptional' := fits'.2.1 hoptional
          simp [hrequired] at hoptional'
      | supplied hs hindex allowed hname fits =>
          cases hindex
          exact .supplied hs rfl allowed hname
            (fits.comp (hQ _ Ty.value_mem_parts _ hmem' _ hmem'') ⟨fits'.1, fits'.2.2⟩)
  | absent _ hoptional => simp [hrequired] at hoptional
  | supplied _ hindex => cases hindex

theorem leastLength_trans {elements elements' elements'' : List (Slot Ty)}
    (hwf' : (Ty.tuple elements').WellFormed) (hwf'' : (Ty.tuple elements'').WellFormed)
    (least : leastLength policy elements' ≤ elements.length)
    (least' : leastLength policy elements'' ≤ elements'.length)
    (most' : elements'.length ≤ elements''.length)
    (h' : ∀ p ∈ elements'.zip elements'', SlotFits R p.1 p.2) :
    leastLength policy elements'' ≤ elements.length := by
  have hcount := requiredCount_le_of_fits hwf' hwf'' least' most' h'
  unfold leastLength at *
  split at least <;> simp_all only [if_true]
  · omega
  · omega

/-- The rules by kinds compose where neither the source nor the middle is a union. -/
theorem KindFits.comp {x y z : Ty} (hy : y.WellFormed) (hz : z.WellFormed) (hplain : y.Plain)
    (hplain' : z.Plain) (hsource : ∀ members, x ≠ .union members)
    (hmiddle : ∀ members, y ≠ .union members)
    (hQ : ∀ a b c, (a = x ∨ a ∈ x.parts) → (b = y ∨ b ∈ y.parts) → (c = z ∨ c ∈ z.parts) →
      R a b → R' b c → Q a c)
    (hxy : R x y) (h : KindFits policy R x y) (h' : KindFits policy R' y z) :
    KindFits policy Q x z := by
  by_cases htarget : ∀ members, z ≠ .union members
  swap
  · push Not at htarget
    obtain ⟨members, rfl⟩ := htarget
    cases h' with
    | unionSource => exact absurd rfl (hmiddle _)
    | unionTarget _ hm h' =>
        exact .unionTarget hsource hm (hQ x y _ (Or.inl rfl) (Or.inl rfl) (Or.inr hm) hxy h')
  -- none of the three is a union: their kinds match
  cases h with
  | unionSource => exact absurd rfl (hsource _)
  | unionTarget => exact absurd rfl (hmiddle _)
  | @widening l hwiden =>
      unfold Ty.base at h'
      cases h' with
      | unionTarget => exact absurd rfl (htarget _)
  | array h =>
      cases h' with
      | unionTarget => exact absurd rfl (htarget _)
      | array h' =>
          exact .array (h.comp (hQ _ _ _ (by simp [Ty.parts]) (by simp [Ty.parts])
            (by simp [Ty.parts])) h')
  | tupleArray h =>
      cases h' with
      | unionTarget => exact absurd rfl (htarget _)
      | array h' =>
          refine .tupleArray fun s hs => (h s hs).comp (hQ _ _ _ ?_ ?_ ?_) h'
          · exact Or.inr (List.mem_map_of_mem hs)
          · simp [Ty.parts]
          · simp [Ty.parts]
  | tuple least most h =>
      cases h' with
      | unionTarget => exact absurd rfl (htarget _)
      | tupleArray h' =>
          refine .tupleArray fun s hs => ?_
          rw [← List.map_fst_zip most, List.mem_map] at hs
          obtain ⟨⟨s, t⟩, hst, rfl⟩ := hs
          obtain ⟨hs, ht⟩ := List.of_mem_zip hst
          have hslot := h _ hst
          refine ValueFits.comp (hQ _ _ _ ?_ ?_ ?_) ⟨hslot.1, hslot.2.2⟩ (h' t ht)
          · exact Or.inr (List.mem_map_of_mem hs)
          · exact Or.inr (List.mem_map_of_mem ht)
          · simp [Ty.parts]
      | tuple least' most' h' =>
          refine .tuple (leastLength_trans hy hz least least' most' h') (most.trans most') ?_
          intro p hp
          obtain ⟨b, hb, hb'⟩ := exists_mem_zip_middle most hp
          refine (h _ hb).comp (hQ _ _ _ ?_ ?_ ?_) (h' _ hb')
          · exact Or.inr (List.mem_map_of_mem (List.of_mem_zip hp).1)
          · exact Or.inr (List.mem_map_of_mem (List.of_mem_zip hb).2)
          · exact Or.inr (List.mem_map_of_mem (List.of_mem_zip hp).2)
  | object h =>
      cases h' with
      | unionTarget => exact absurd rfl (htarget _)
      | object h' =>
          refine .object (ObjectFits.comp ?_ ?_ ?_ h h')
          · exact hplain
          · exact hplain'
          · exact fun a ha b hb c hc => hQ a b c (Or.inr ha) (Or.inr hb) (Or.inr hc)

end Composition

section Transitive

variable {setting : Setting} {s t u x y z : Ty}

/-- Types that are assignable through a regular type in the middle. -/
def Composed (setting : Setting) (s u : Ty) : Prop :=
  s.WellFormed ∧ setting.declarations.Regular u ∧
    ∃ t, setting.declarations.Regular t ∧ Assignable setting s t ∧ Assignable setting t u

theorem kinds_of_assignable (hd : setting.declarations.WellFormed)
    (hx : setting.declarations.StandsFor x x) (hy : setting.declarations.StandsFor y y)
    (hz : setting.declarations.StandsFor z z) (hwf : x.WellFormed)
    (hmiddle : setting.declarations.Regular y) (hwf' : z.WellFormed)
    (hxy : Assignable setting x y) (hyz : Assignable setting y z) :
    Fits setting.policy (Assignable setting) x z ∨
      z ≠ .primitive "never" ∧ x ≠ .primitive "unknown" ∧
        KindFits setting.policy (Assignable setting) x y ∧
        KindFits setting.policy (Assignable setting) y z := by
  cases (assignable_iff_fits_structures hx hy).mp hxy with
  | equal h =>
      left
      rw [← assignable_iff_fits_structures hx hz]
      exact Assignable.of_beq hd hmiddle.wellFormed hwf hwf' hwf'
        (Ty.beq_symm hwf hmiddle.wellFormed h) (Ty.beq_refl hwf') hyz
  | always h =>
      left
      rcases h with rfl | rfl | hany | hnever
      · exact absurd rfl hmiddle.ne_any
      · rcases fits_unknown_iff.mp ((assignable_iff_fits_structures hy hz).mp hyz) with rfl | rfl
        · exact .always (by simp [FitsAlways])
        · exact .always (by simp [FitsAlways])
      · exact .always (by simp [FitsAlways, hany])
      · exact .always (by simp [FitsAlways, hnever])
  | kind hnever hunknown h =>
      cases (assignable_iff_fits_structures hy hz).mp hyz with
      | equal h' =>
          left
          rw [← assignable_iff_fits_structures hx hz]
          exact Assignable.of_beq hd hwf hwf hmiddle.wellFormed hwf' (Ty.beq_refl hwf) h' hxy
      | always h' =>
          left
          rcases h' with hany | hunknown' | hany | hnever'
          · exact .always (by simp [FitsAlways, hany])
          · exact .always (by simp [FitsAlways, hunknown'])
          · exact absurd hany hmiddle.ne_any
          · exact absurd hnever' hnever
      | kind hnever' _ h' => exact Or.inr ⟨hnever', hunknown, h, h'⟩

/-- The rules support what is assignable through a type in the middle. -/
theorem fits_of_composed (hd : setting.declarations.WellFormed)
    (hguarded : setting.declarations.Guarded) (hx : setting.declarations.StandsFor x x)
    (hz : setting.declarations.StandsFor z z) (hwf : x.WellFormed)
    (hregular : setting.declarations.Regular z) (ht : setting.declarations.Regular t)
    (hxt : Assignable setting x t) (htz : Assignable setting t z) :
    Fits setting.policy (fun a b => Composed setting a b ∨ Assignable setting a b) x z := by
  -- by the members of the middle: a member that the source fits is the next middle
  revert ht hxt htz
  refine members_induction (P := fun t => setting.declarations.Regular t →
    Assignable setting x t → Assignable setting t z → Fits setting.policy _ x z)
    (hguarded.not_endless t) ?_
  intro t ih ht hxt htz
  obtain ⟨-, y, -, hty, -⟩ := assignable_iff_structures.mp hxt
  have hy := ht.standsFor hd hty
  have hxy := (assignable_target_iff hty).mpr hxt
  have hyz := (assignable_source_iff hty).mpr htz
  rcases kinds_of_assignable hd hx hty.self hz hwf hy hregular.wellFormed hxy hyz with
    hfits | ⟨hnever, hunknown, h, h'⟩
  · exact hfits.mono fun _ _ => Or.inr
  have hcomposed : ∀ a b c, (a = x ∨ a ∈ x.parts) → (b = y ∨ b ∈ y.parts) →
      (c = z ∨ c ∈ z.parts) → Assignable setting a b → Assignable setting b c →
      Composed setting a c ∨ Assignable setting a c :=
    fun a b c ha hb hc hab hbc => Or.inl ⟨hwf.self_or_part ha, hregular.self_or_part hc,
      b, hy.self_or_part hb, hab, hbc⟩
  by_cases hsource : ∃ members, x = .union members
  · obtain ⟨members, rfl⟩ := hsource
    refine .kind hnever hunknown (.unionSource fun m hm => ?_)
    cases h with
    | unionSource h =>
        exact hcomposed m y z (Or.inr hm) (Or.inl rfl) (Or.inl rfl) (h m hm) hyz
    | unionTarget hs => exact absurd rfl (hs members)
  rw [not_exists] at hsource
  by_cases hmiddle : ∃ members, y = .union members
  · obtain ⟨members, rfl⟩ := hmiddle
    cases h with
    | unionSource => exact absurd rfl (hsource _)
    | @unionTarget _ m _ _ hm h =>
        have hmember : setting.declarations.HasMember t m := ⟨members, hty.resolve_union, hm⟩
        cases h' with
        | unionSource h' => exact ih m hmember (ht.member hd hmember) h (h' m hm)
        | unionTarget hs => exact absurd rfl (hs members)
  rw [not_exists] at hmiddle
  exact .kind hnever hunknown (KindFits.comp hy.wellFormed hregular.wellFormed
    hy.self_plain hregular.self_plain hsource hmiddle hcomposed hxy h h')

theorem supported_composed (hd : setting.declarations.WellFormed)
    (hguarded : setting.declarations.Guarded) : Supported setting (Composed setting) := by
  rintro s u ⟨hs, hu, t, ht, hst, htu⟩
  obtain ⟨x, -, hx, -, -⟩ := assignable_iff_structures.mp hst
  obtain ⟨-, z, -, hz, -⟩ := assignable_iff_structures.mp htu
  exact ⟨x, z, hx, hz, fits_of_composed hd hguarded hx.self hz.self (hx.wellFormed hd hs)
    (hu.standsFor hd hz) ht ((assignable_source_iff hx).mpr hst)
    ((assignable_target_iff hz).mpr htu)⟩

/-- Nothing passes through a type in the middle that does not fit directly. -/
theorem check_trans (hd : setting.declarations.WellFormed)
    (hguarded : setting.declarations.Guarded) (hs : s.WellFormed) (ht : t.WellFormed)
    (hu : u.WellFormed) (hplain : setting.declarations.PlainWithin t)
    (hplain' : setting.declarations.PlainWithin u) (hst : setting.check s t = .ok .accepted)
    (htu : setting.check t u = .ok .accepted) {v : Verdict} (h : setting.check s u = .ok v) :
    v.isAccepted = true := by
  have hst' := (isAccepted_iff_assignable hd hs ht hst).mp rfl
  have htu' := (isAccepted_iff_assignable hd ht hu htu).mp rfl
  rw [isAccepted_iff_assignable hd hs hu h]
  exact (supported_composed hd hguarded).assignable ⟨hs, ⟨hu, hplain'⟩, t, ⟨ht, hplain⟩, hst', htu'⟩

/-- Three chains without an end. The steps of the second are behind a union, and their positions
and texts are less precise than those of the first; the third keeps them readonly. -/
def chains : Declarations :=
  .ofList [
    ("Exact", .object [("tag", ⟨.literal (.text "a"), false, false⟩),
      ("span", ⟨.tuple [⟨.number, false, false⟩], false, false⟩),
      ("next", ⟨.named "Exact", false, false⟩)] none),
    ("Chain", .union [.primitive "never", .named "Step"]),
    ("Step", .object [("tag", ⟨.string, false, false⟩),
      ("span", ⟨.tuple [⟨.number, false, false⟩, ⟨.string, false, true⟩], false, false⟩),
      ("next", ⟨.named "Chain", false, false⟩)] none),
    ("Loose", .union [.number, .object [("tag", ⟨.union [.number, .string], true, false⟩),
      ("span", ⟨.array (.union [.string, .number]) true, true, false⟩),
      ("next", ⟨.named "Loose", true, false⟩)] none])]

theorem check_trans_chains :
    chains.Guarded ∧ chains.PlainWithin (.named "Chain") ∧ chains.PlainWithin (.named "Loose") ∧
      ∃ v, Setting.check ⟨{}, chains⟩ (.named "Exact") (.named "Loose") = .ok v ∧
        v.isAccepted = true := by
  have hguarded : chains.Guarded :=
    guarded_of_rank (fun name => if name = "Chain" then 1 else 0) (by decide)
  have hplain : chains.PlainWithin (.named "Chain") := .of_pool (by decide)
  have hplain' : chains.PlainWithin (.named "Loose") := .of_pool (by decide)
  have hst : Setting.check ⟨{}, chains⟩ (.named "Exact") (.named "Chain") = .ok .accepted := rfl
  have htu : Setting.check ⟨{}, chains⟩ (.named "Chain") (.named "Loose") = .ok .accepted := rfl
  have hsu : ∃ v, Setting.check ⟨{}, chains⟩ (.named "Exact") (.named "Loose") = .ok v := ⟨_, rfl⟩
  obtain ⟨v, hv⟩ := hsu
  have hd : (Setting.mk {} chains).declarations.WellFormed := by decide
  exact ⟨hguarded, hplain, hplain', v, hv, check_trans hd hguarded (by decide) (by decide)
    (by decide) hplain hplain' hst htu hv⟩

end Transitive

end StructuralTypes.Assignability
