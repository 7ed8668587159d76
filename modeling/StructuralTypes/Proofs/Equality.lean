import StructuralTypes.Proofs.Number
import StructuralTypes.Proofs.WellFormed

namespace StructuralTypes

/-- Slots of equal types with the same modifiers. -/
structure Slot.Alike (s t : Slot Ty) : Prop where
  type : s.type == t.type
  readonly : s.readonly = t.readonly
  optional : s.optional = t.optional

/-- Index rules over equal types with the same modifier. -/
structure IndexRule.Alike (r q : IndexRule Ty) : Prop where
  key : r.key == q.key
  value : r.value == q.value
  readonly : r.readonly = q.readonly

namespace Ty

/-- Each field has its like under its name in another list. -/
def FieldsAlike (fields fields' : List (String × Slot Ty)) : Prop :=
  ∀ name s, (name, s) ∈ fields → ∃ t, fields'.lookup name = some t ∧ s.Alike t

theorem sameFields_iff {fields fields' : List (String × Slot Ty)} :
    sameFields fields fields' = true ↔ FieldsAlike fields fields' := by
  induction fields with
  | nil => simp [sameFields, FieldsAlike]
  | cons f rest ih =>
      obtain ⟨name, t, readonly, optional⟩ := f
      simp only [sameFields, Bool.and_eq_true, ih, FieldsAlike, List.mem_cons, Prod.mk.injEq]
      constructor
      · rintro ⟨hhead, hrest⟩ n s (⟨rfl, rfl⟩ | hmem)
        · cases hlook : fields'.lookup n with
          | none => simp [hlook] at hhead
          | some s' =>
              simp only [hlook, Bool.and_eq_true, beq_iff_eq] at hhead
              exact ⟨s', rfl, hhead.1.1, hhead.1.2, hhead.2⟩
        · exact hrest n s hmem
      · intro h
        refine ⟨?_, fun n s hmem => h n s (Or.inr hmem)⟩
        obtain ⟨s', hlook, htype, hreadonly, hoptional⟩ := h name _ (Or.inl ⟨rfl, rfl⟩)
        simp only [hlook, Bool.and_eq_true, beq_iff_eq]
        exact ⟨⟨htype, hreadonly⟩, hoptional⟩

theorem sameIndex_iff {index index' : Option (IndexRule Ty)} :
    sameIndex index index' = true ↔ Option.Rel IndexRule.Alike index index' := by
  cases index <;> cases index'
  case none.none => simp [sameIndex]
  case none.some => simp [sameIndex]
  case some.none => simp [sameIndex]
  case some.some r q =>
    simp only [sameIndex, Bool.and_eq_true, beq_iff_eq, Option.rel_some_some]
    constructor
    · rintro ⟨⟨hkey, hvalue⟩, hreadonly⟩
      exact ⟨hkey, hvalue, hreadonly⟩
    · rintro ⟨hkey, hvalue, hreadonly⟩
      exact ⟨⟨hkey, hvalue⟩, hreadonly⟩

theorem sameSlots_iff {elements elements' : List (Slot Ty)} :
    sameSlots elements elements' = true ↔ List.Forall₂ Slot.Alike elements elements' := by
  induction elements generalizing elements' with
  | nil => cases elements' <;> simp [sameSlots]
  | cons s rest ih =>
      cases elements' with
      | nil => simp [sameSlots]
      | cons t rest' =>
          simp only [sameSlots, Bool.and_eq_true, beq_iff_eq, ih, List.forall₂_cons]
          constructor
          · rintro ⟨⟨⟨htype, hreadonly⟩, hoptional⟩, hrest⟩
            exact ⟨⟨htype, hreadonly, hoptional⟩, hrest⟩
          · rintro ⟨⟨htype, hreadonly, hoptional⟩, hrest⟩
            exact ⟨⟨⟨htype, hreadonly⟩, hoptional⟩, hrest⟩

theorem eachIn_iff {members members' : List Ty} :
    eachIn members members' = true ↔ ∀ m ∈ members, ∃ m' ∈ members', m == m' := by
  induction members with
  | nil => simp [eachIn]
  | cons m rest ih =>
      simp only [eachIn, Bool.and_eq_true, ih, List.any_eq_true, List.forall_mem_cons]
      rfl

theorem someSame_iff {members : List Ty} {t : Ty} :
    someSame members t = true ↔ ∃ m ∈ members, m == t := by
  induction members with
  | nil => simp [someSame]
  | cons m rest ih =>
      simp only [someSame, Bool.or_eq_true, ih, List.exists_mem_cons_iff]
      rfl

/-- Equality of types, one level down: the kinds agree and the parts are equal. -/
inductive Alike : Ty → Ty → Prop
  | primitive (name : String) : Alike (.primitive name) (.primitive name)
  | literal {l m : Literal} (h : l.same m = true) : Alike (.literal l) (.literal m)
  | object {fields fields' : List (String × Slot Ty)} {index index' : Option (IndexRule Ty)}
      (length : fields.length = fields'.length) (fieldsAlike : FieldsAlike fields fields')
      (indexAlike : Option.Rel IndexRule.Alike index index') :
      Alike (.object fields index) (.object fields' index')
  | array {element element' : Ty} (readonly : Bool) (h : element == element') :
      Alike (.array element readonly) (.array element' readonly)
  | tuple {elements elements' : List (Slot Ty)} (h : List.Forall₂ Slot.Alike elements elements') :
      Alike (.tuple elements) (.tuple elements')
  | union {members members' : List Ty} (forth : ∀ m ∈ members, ∃ m' ∈ members', m == m')
      (back : ∀ m' ∈ members', ∃ m ∈ members, m == m') : Alike (.union members) (.union members')
  | mapped {entries entries' : List (String × Slot Ty)} (length : entries.length = entries'.length)
      (fieldsAlike : FieldsAlike entries entries') : Alike (.mapped entries) (.mapped entries')
  | named (name : String) : Alike (.named name) (.named name)
  | foreign {v w : Scalar} (h : v.same w = true) : Alike (.foreign v) (.foreign w)

theorem Alike.beq {s t : Ty} (h : Alike s t) : s == t := by
  change same s t = true
  cases h with
  | primitive name => simp [same]
  | literal h => exact h
  | object length fieldsAlike indexAlike =>
      simp only [same, Bool.and_eq_true, beq_iff_eq, sameFields_iff, sameIndex_iff]
      exact ⟨⟨length, fieldsAlike⟩, indexAlike⟩
  | array readonly h =>
      simp only [same, Bool.and_eq_true, beq_self_eq_true, and_true]
      exact h
  | tuple h => exact sameSlots_iff.mpr h
  | union forth back =>
      simp only [same, Bool.and_eq_true, eachIn_iff, List.all_eq_true, someSame_iff]
      exact ⟨forth, back⟩
  | mapped length fieldsAlike =>
      simp only [same, Bool.and_eq_true, beq_iff_eq, sameFields_iff]
      exact ⟨length, fieldsAlike⟩
  | named name => simp [same]
  | foreign h => exact h

theorem alike_of_beq {s t : Ty} (h : s == t) : Alike s t := by
  change same s t = true at h
  cases s <;> cases t <;> simp only [same, Bool.and_eq_true, beq_iff_eq, Bool.false_eq_true] at h
  case primitive.primitive => exact h ▸ Alike.primitive _
  case literal.literal => exact Alike.literal h
  case object.object =>
    exact Alike.object h.1.1 (sameFields_iff.mp h.1.2) (sameIndex_iff.mp h.2)
  case array.array => exact h.2 ▸ Alike.array _ h.1
  case tuple.tuple => exact Alike.tuple (sameSlots_iff.mp h)
  case union.union =>
    refine Alike.union (eachIn_iff.mp h.1) fun m' hm' => ?_
    exact someSame_iff.mp (List.all_eq_true.mp h.2 m' hm')
  case mapped.mapped => exact Alike.mapped h.1 (sameFields_iff.mp h.2)
  case named.named => exact h ▸ Alike.named _
  case foreign.foreign => exact Alike.foreign h

theorem beq_refl {t : Ty} (h : t.WellFormed) : t == t := by
  induction t using parts_induction with
  | step t ih =>
      have hpart : ∀ p ∈ t.parts, p == p := fun p hp => ih p hp (h.part hp)
      have hfields : ∀ fields : List (String × Slot Ty), (Assoc.names fields).Nodup →
          (∀ name s, (name, s) ∈ fields → s.type ∈ t.parts) → FieldsAlike fields fields :=
        fun fields hnodup hmem name s hs =>
          ⟨s, Assoc.lookup_of_mem hnodup hs, hpart _ (hmem name s hs), rfl, rfl⟩
      apply Alike.beq
      cases t with
      | primitive name => exact .primitive name
      | literal l => exact .literal (Literal.same_refl l)
      | object fields index =>
          refine .object rfl (hfields fields h.names_nodup fun _ _ => mem_parts_of_mem_fields) ?_
          cases index with
          | none => exact .none
          | some r => exact .some ⟨hpart _ key_mem_parts, hpart _ value_mem_parts, rfl⟩
      | array element readonly => exact .array readonly (hpart _ (by simp [parts]))
      | tuple elements =>
          refine .tuple (List.forall₂_same.mpr fun s hs => ⟨hpart _ ?_, rfl, rfl⟩)
          exact List.mem_map_of_mem hs
      | union members =>
          exact .union (fun m hm => ⟨m, hm, hpart m hm⟩) fun m hm => ⟨m, hm, hpart m hm⟩
      | mapped entries =>
          refine .mapped rfl (hfields entries h.entries_nodup fun _ s hs => ?_)
          exact mem_parts_of_mem_entries hs
      | named name => exact .named name
      | foreign v => exact .foreign (Scalar.same_refl v)

theorem FieldsAlike.exists_of_mem {fields fields' : List (String × Slot Ty)}
    (hnodup : (Assoc.names fields).Nodup) (hnodup' : (Assoc.names fields').Nodup)
    (hlength : fields.length = fields'.length) (h : FieldsAlike fields fields') {name : String}
    {t : Slot Ty} (ht : (name, t) ∈ fields') : ∃ s, (name, s) ∈ fields ∧ s.Alike t := by
  have hsub : Assoc.names fields ⊆ Assoc.names fields' := by
    intro name hname
    obtain ⟨⟨n, s⟩, hs, rfl⟩ := List.mem_map.mp hname
    obtain ⟨t, ht, -⟩ := h n s hs
    exact List.mem_map.mpr ⟨(n, t), Assoc.mem_of_lookup ht, rfl⟩
  have hperm : (Assoc.names fields).Perm (Assoc.names fields') :=
    (hnodup.subperm hsub).perm_of_length_le (by simp [Assoc.names, hlength])
  have hname : name ∈ Assoc.names fields :=
    hperm.mem_iff.mpr (List.mem_map_of_mem (f := Prod.fst) ht)
  obtain ⟨⟨n, s⟩, hs, rfl⟩ := List.mem_map.mp hname
  obtain ⟨t', ht', halike⟩ := h n s hs
  rw [Assoc.lookup_of_mem hnodup' ht] at ht'
  exact ⟨s, hs, Option.some.inj ht' ▸ halike⟩

theorem FieldsAlike.symm {fields fields' : List (String × Slot Ty)}
    (hnodup : (Assoc.names fields).Nodup) (hnodup' : (Assoc.names fields').Nodup)
    (hlength : fields.length = fields'.length)
    (hsymm : ∀ name s, (name, s) ∈ fields → ∀ name' t, (name', t) ∈ fields' → s.type == t.type →
      t.type == s.type)
    (h : FieldsAlike fields fields') : FieldsAlike fields' fields := by
  intro name t ht
  obtain ⟨s, hs, halike⟩ := h.exists_of_mem hnodup hnodup' hlength ht
  exact ⟨s, Assoc.lookup_of_mem hnodup hs, hsymm name s hs name t ht halike.type,
    halike.readonly.symm, halike.optional.symm⟩

theorem beq_symm {s t : Ty} (hs : s.WellFormed) (ht : t.WellFormed) (hst : s == t) : t == s := by
  induction s using parts_induction generalizing t with
  | step s ih =>
      have hpart : ∀ p ∈ s.parts, ∀ q ∈ t.parts, p == q → q == p := fun p hp q hq hpq =>
        ih p hp (hs.part hp) (ht.part hq) hpq
      apply Alike.beq
      cases alike_of_beq hst with
      | primitive name => exact .primitive name
      | literal h => exact .literal (Literal.same_symm h)
      | object length fieldsAlike indexAlike =>
          refine .object length.symm (fieldsAlike.symm hs.names_nodup ht.names_nodup length ?_) ?_
          · intro n s' hs' n' t' ht'
            exact hpart _ (mem_parts_of_mem_fields hs') _ (mem_parts_of_mem_fields ht')
          · cases indexAlike with
            | none => exact .none
            | some hrule =>
                exact .some ⟨hpart _ key_mem_parts _ key_mem_parts hrule.key,
                  hpart _ value_mem_parts _ value_mem_parts hrule.value, hrule.readonly.symm⟩
      | array readonly h =>
          exact .array readonly (hpart _ (by simp [parts]) _ (by simp [parts]) h)
      | tuple h =>
          refine .tuple (List.Forall₂.flip (List.forall₂_iff_get.mpr ⟨h.length_eq, ?_⟩))
          intro i hi hi'
          have halike := (List.forall₂_iff_get.mp h).2 i hi hi'
          refine ⟨hpart _ ?_ _ ?_ halike.type, halike.readonly.symm, halike.optional.symm⟩
          · exact List.mem_map_of_mem (List.get_mem _ _)
          · exact List.mem_map_of_mem (List.get_mem _ _)
      | union forth back =>
          refine .union (fun m' hm' => ?_) fun m hm => ?_
          · obtain ⟨m, hm, hmm⟩ := back m' hm'
            exact ⟨m, hm, hpart m hm m' hm' hmm⟩
          · obtain ⟨m', hm', hmm⟩ := forth m hm
            exact ⟨m', hm', hpart m hm m' hm' hmm⟩
      | mapped length fieldsAlike =>
          refine .mapped length.symm
            (fieldsAlike.symm hs.entries_nodup ht.entries_nodup length ?_)
          intro n s' hs' n' t' ht'
          exact hpart _ (mem_parts_of_mem_entries hs') _ (mem_parts_of_mem_entries ht')
      | named name => exact .named name
      | foreign h => exact .foreign (Scalar.same_symm h)

theorem FieldsAlike.trans {fields fields' fields'' : List (String × Slot Ty)}
    (htrans : ∀ name s, (name, s) ∈ fields → ∀ t u, s.type == t → t == u → s.type == u)
    (h : FieldsAlike fields fields') (h' : FieldsAlike fields' fields'') :
    FieldsAlike fields fields'' := by
  intro name s hs
  obtain ⟨t, ht, hst⟩ := h name s hs
  obtain ⟨u, hu, htu⟩ := h' name t (Assoc.mem_of_lookup ht)
  exact ⟨u, hu, htrans name s hs _ _ hst.type htu.type, hst.readonly.trans htu.readonly,
    hst.optional.trans htu.optional⟩

theorem beq_trans {s t u : Ty} (hst : s == t) (htu : t == u) : s == u := by
  induction s using parts_induction generalizing t u with
  | step s ih =>
      apply Alike.beq
      cases alike_of_beq hst with
      | primitive name => exact alike_of_beq htu
      | literal h =>
          cases alike_of_beq htu with
          | literal h' => exact .literal (Literal.same_trans h h')
      | object length fieldsAlike indexAlike =>
          cases alike_of_beq htu with
          | object length' fieldsAlike' indexAlike' =>
              refine .object (length.trans length') (fieldsAlike.trans ?_ fieldsAlike') ?_
              · intro n s' hs' t' u'
                exact ih _ (mem_parts_of_mem_fields hs')
              · cases indexAlike with
                | none => exact indexAlike'
                | some hr =>
                    cases indexAlike' with
                    | some hq =>
                        exact .some ⟨ih _ key_mem_parts hr.key hq.key,
                          ih _ value_mem_parts hr.value hq.value, hr.readonly.trans hq.readonly⟩
      | array readonly h =>
          cases alike_of_beq htu with
          | array _ h' => exact .array readonly (ih _ (by simp [parts]) h h')
      | tuple h =>
          cases alike_of_beq htu with
          | tuple h' =>
              refine .tuple (List.forall₂_iff_get.mpr ⟨h.length_eq.trans h'.length_eq, ?_⟩)
              intro i hi hi'
              have hi'' := h.length_eq ▸ hi
              have hst := (List.forall₂_iff_get.mp h).2 i hi hi''
              have htu := (List.forall₂_iff_get.mp h').2 i hi'' hi'
              exact ⟨ih _ (List.mem_map_of_mem (List.get_mem _ _)) hst.type htu.type,
                hst.readonly.trans htu.readonly, hst.optional.trans htu.optional⟩
      | union forth back =>
          cases alike_of_beq htu with
          | union forth' back' =>
              refine .union (fun m hm => ?_) fun m'' hm'' => ?_
              · obtain ⟨m', hm', hmm⟩ := forth m hm
                obtain ⟨m'', hm'', hmm'⟩ := forth' m' hm'
                exact ⟨m'', hm'', ih m hm hmm hmm'⟩
              · obtain ⟨m', hm', hmm'⟩ := back' m'' hm''
                obtain ⟨m, hm, hmm⟩ := back m' hm'
                exact ⟨m, hm, ih m hm hmm hmm'⟩
      | mapped length fieldsAlike =>
          cases alike_of_beq htu with
          | mapped length' fieldsAlike' =>
              refine .mapped (length.trans length') (fieldsAlike.trans ?_ fieldsAlike')
              intro n s' hs' t' u'
              exact ih _ (mem_parts_of_mem_entries hs')
      | named name => exact alike_of_beq htu
      | foreign h =>
          cases alike_of_beq htu with
          | foreign h' => exact .foreign (Scalar.same_trans h h')

theorem exists_distinct_beq {members : List Ty} {m t : Ty} (hm : m ∈ members) (hbeq : m == t) :
    ∃ m' ∈ distinct members, m' == t := by
  induction members with
  | nil => cases hm
  | cons first rest ih =>
      unfold distinct
      rcases List.mem_cons.mp hm with rfl | hm
      · exact ⟨m, List.mem_cons_self, hbeq⟩
      · obtain ⟨m', hm', hbeq'⟩ := ih hm
        cases hfirst : first == m' with
        | true => exact ⟨first, List.mem_cons_self, beq_trans hfirst hbeq'⟩
        | false =>
            refine ⟨m', List.mem_cons_of_mem first (List.mem_filter.mpr ⟨hm', ?_⟩), hbeq'⟩
            rw [hfirst]
            rfl

theorem exists_mem_distinct {members : List Ty} (hmembers : ∀ m ∈ members, m.WellFormed) {m : Ty}
    (hm : m ∈ members) : ∃ m' ∈ distinct members, m' == m :=
  exists_distinct_beq hm (beq_refl (hmembers m hm))

end Ty

end StructuralTypes
