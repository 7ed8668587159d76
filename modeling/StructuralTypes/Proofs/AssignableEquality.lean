import StructuralTypes.Proofs.Correspondence
import StructuralTypes.Proofs.Resolution

namespace StructuralTypes

namespace Ty

/-- Well-formed types that are equal. -/
structure Equal (s t : Ty) : Prop where
  wellFormed : s.WellFormed
  wellFormed' : t.WellFormed
  beq : s == t

theorem Equal.refl {t : Ty} (h : t.WellFormed) : Equal t t :=
  ⟨h, h, beq_refl h⟩

theorem Equal.symm {s t : Ty} (h : Equal s t) : Equal t s :=
  ⟨h.wellFormed', h.wellFormed, beq_symm h.wellFormed h.wellFormed' h.beq⟩

theorem Equal.trans {s t u : Ty} (h : Equal s t) (h' : Equal t u) : Equal s u :=
  ⟨h.wellFormed, h'.wellFormed', beq_trans h.beq h'.beq⟩

theorem FieldsAlike.correspond {fields fields' : List (String × Slot Ty)}
    (hnodup : (Assoc.names fields).Nodup) (hnodup' : (Assoc.names fields').Nodup)
    (hlength : fields.length = fields'.length)
    (hwf : ∀ f ∈ fields, f.2.type.WellFormed) (hwf' : ∀ f ∈ fields', f.2.type.WellFormed)
    (h : FieldsAlike fields fields') : FieldsCorrespond Equal fields fields' := by
  intro name
  cases hs : fields.lookup name with
  | none =>
      have hnone : fields'.lookup name = none := by
        rw [Assoc.lookup_eq_none_iff] at hs ⊢
        intro hname
        obtain ⟨⟨n, t⟩, ht, rfl⟩ := List.mem_map.mp hname
        obtain ⟨s, hs', -⟩ := h.exists_of_mem hnodup hnodup' hlength ht
        exact hs (List.mem_map.mpr ⟨(n, s), hs', rfl⟩)
      rw [hnone]
      exact .none
  | some s =>
      have hmem := Assoc.mem_of_lookup hs
      obtain ⟨t, ht, halike⟩ := h name s hmem
      rw [ht]
      exact .some ⟨⟨hwf _ hmem, hwf' _ (Assoc.mem_of_lookup ht), halike.type⟩, halike.readonly,
        halike.optional⟩

theorem Equal.corresponds {s t : Ty} (h : Equal s t) (hnamed : s.isNamed = false)
    (hforeign : s.foreign? = none) : Corresponds Equal s.expanded t.expanded := by
  have hs := h.wellFormed
  have ht := h.wellFormed'
  have hpart : ∀ p ∈ s.parts, ∀ q ∈ t.parts, p == q → Equal p q := fun p hp q hq hpq =>
    ⟨hs.part hp, ht.part hq, hpq⟩
  cases alike_of_beq h.beq with
  | primitive name => exact .primitive name
  | literal hsame => exact .literal hsame
  | object length fieldsAlike indexAlike =>
      refine .object (fieldsAlike.correspond hs.names_nodup ht.names_nodup length ?_ ?_) ?_
      · exact fun f hf => hs.part (mem_parts_of_mem_fields hf)
      · exact fun f hf => ht.part (mem_parts_of_mem_fields hf)
      · cases indexAlike with
        | none => exact .none
        | some halike =>
            exact .some ⟨.of_beq halike.key, hpart _ key_mem_parts _ key_mem_parts halike.key,
              hpart _ value_mem_parts _ value_mem_parts halike.value, halike.readonly⟩
  | array readonly helement =>
      exact .array readonly (hpart _ (by simp [parts]) _ (by simp [parts]) helement)
  | tuple hslots =>
      refine .tuple (List.forall₂_iff_get.mpr ⟨hslots.length_eq, fun i hi hi' => ?_⟩)
      have halike := (List.forall₂_iff_get.mp hslots).2 i hi hi'
      refine ⟨hpart _ ?_ _ ?_ halike.type, halike.readonly, halike.optional⟩
      · exact List.mem_map_of_mem (List.get_mem _ _)
      · exact List.mem_map_of_mem (List.get_mem _ _)
  | union forth back =>
      refine .union (fun m hm => ?_) fun m' hm' => ?_
      · obtain ⟨m', hm', hmm⟩ := forth m hm
        exact ⟨m', hm', hpart m hm m' hm' hmm⟩
      · obtain ⟨m, hm, hmm⟩ := back m' hm'
        exact ⟨m, hm, hpart m hm m' hm' hmm⟩
  | mapped length fieldsAlike =>
      refine .object (fieldsAlike.correspond hs.entries_nodup ht.entries_nodup length ?_ ?_) .none
      · exact fun f hf => hs.part (mem_parts_of_mem_entries hf)
      · exact fun f hf => ht.part (mem_parts_of_mem_entries hf)
  | named name => cases hnamed
  | foreign h => cases hforeign

end Ty

namespace Assignability

/-- A relation that does not tell equal types apart. -/
def Respects (R : Ty → Ty → Prop) : Prop :=
  ∀ s t, R s t → ∀ s' t', s'.WellFormed → t'.WellFormed → s == s' → t == t' → R s' t'

theorem Respects.carries {R : Ty → Ty → Prop} (hR : Respects R) : Carries Ty.Equal Ty.Equal R R :=
  fun a a' b b' ha hb hab => hR a b hab a' b' ha.wellFormed' hb.wellFormed' ha.beq hb.beq

theorem foreign?_eq_none_of_beq {s s' : Ty} (h : s == s') (hs : s.foreign? = none) :
    s'.foreign? = none := by
  cases Ty.alike_of_beq h with
  | foreign => cases hs
  | _ => rfl

theorem isNamed_eq_of_beq {s s' : Ty} (h : s == s') : s.isNamed = s'.isNamed := by
  cases Ty.alike_of_beq h <;> rfl

theorem expanded_beq {s s' : Ty} (h : s == s') : s.expanded == s'.expanded := by
  cases Ty.alike_of_beq h with
  | mapped length fieldsAlike => exact (Ty.Alike.object length fieldsAlike .none).beq
  | _ => exact h

theorem resolve_of_beq {d : Declarations} (hd : d.WellFormed) {s s' r : Ty} (hs : s.WellFormed)
    (h : s == s') (hr : d.resolve s = .ok r) : ∃ r', d.resolve s' = .ok r' ∧ r == r' := by
  cases hnamed : s.isNamed with
  | true =>
      have heq : s = s' := by
        cases Ty.alike_of_beq h with
        | named name => rfl
        | _ => cases hnamed
      exact ⟨r, heq ▸ hr, Ty.beq_refl (hd.resolve hs hr)⟩
  | false =>
      have hnamed' : s'.isNamed = false := by rw [← isNamed_eq_of_beq h, hnamed]
      rw [Declarations.resolve_of_not_named hnamed] at hr
      cases hr
      exact ⟨s', Declarations.resolve_of_not_named hnamed', h⟩

theorem OneStep.of_beq {setting : Setting} {R : Ty → Ty → Prop} {s s' t t' : Ty}
    (hd : setting.declarations.WellFormed) (hR : Respects R) (hs : s.WellFormed)
    (hs' : s'.WellFormed) (ht : t.WellFormed) (ht' : t'.WellFormed) (hss : s == s')
    (htt : t == t') (h : OneStep setting R s t) : OneStep setting R s' t' := by
  cases h with
  | named hfs hft hnamed hrs hrt h =>
      obtain ⟨r', hrs', hrr⟩ := resolve_of_beq hd hs hss hrs
      obtain ⟨q', hrt', hqq⟩ := resolve_of_beq hd ht htt hrt
      rw [isNamed_eq_of_beq hss, isNamed_eq_of_beq htt] at hnamed
      exact .named (foreign?_eq_none_of_beq hss hfs) (foreign?_eq_none_of_beq htt hft) hnamed
        hrs' hrt' (hR _ _ h r' q' (hd.resolve hs' hrs') (hd.resolve ht' hrt') hrr hqq)
  | structural hfs hft hsn htn h =>
      have hsource : Ty.Equal s.expanded s'.expanded :=
        ⟨hs.expanded, hs'.expanded, expanded_beq hss⟩
      have htarget : Ty.Equal t.expanded t'.expanded :=
        ⟨ht.expanded, ht'.expanded, expanded_beq htt⟩
      have hfits : Fits setting.policy R s'.expanded t'.expanded := by
        rcases h.equal_or_byParts with hequal | h
        · exact .equal (Ty.beq_trans hsource.symm.beq (Ty.beq_trans hequal htarget.beq))
        · exact (h.transfer hR.carries hs'.expanded ht'.expanded hsource htarget
            (Ty.Equal.corresponds ⟨hs, hs', hss⟩ hsn hfs).loosened
            (Ty.Equal.corresponds ⟨ht, ht', htt⟩ htn hft)).fits
      rw [isNamed_eq_of_beq hss] at hsn
      rw [isNamed_eq_of_beq htt] at htn
      exact .structural (foreign?_eq_none_of_beq hss hfs) (foreign?_eq_none_of_beq htt hft) hsn htn
        hfits

end Assignability

end StructuralTypes
