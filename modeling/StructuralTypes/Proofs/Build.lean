import StructuralTypes.Proofs.WellFormed

namespace StructuralTypes

namespace Assoc

variable {β : Type}

theorem mem_insert {name : String} {value : β} {table : List (String × β)} {entry : String × β}
    (h : entry ∈ insert name value table) : entry = (name, value) ∨ entry ∈ table := by
  induction table with
  | nil => exact Or.inl (List.mem_singleton.mp h)
  | cons first rest ih =>
      unfold insert at h
      split at h
      · rcases List.mem_cons.mp h with h | h
        · exact Or.inl h
        · exact Or.inr (List.mem_cons_of_mem first h)
      · rcases List.mem_cons.mp h with rfl | h
        · exact Or.inr List.mem_cons_self
        · exact (ih h).imp_right (List.mem_cons_of_mem first)

theorem mem_insertMany {table entries : List (String × β)} {entry : String × β}
    (h : entry ∈ insertMany table entries) : entry ∈ table ∨ entry ∈ entries := by
  induction entries generalizing table with
  | nil => exact Or.inl h
  | cons first rest ih =>
      rcases ih h with h | h
      · rcases mem_insert h with rfl | h
        · exact Or.inr List.mem_cons_self
        · exact Or.inl h
      · exact Or.inr (List.mem_cons_of_mem first h)

theorem names_insert_nodup {table : List (String × β)} (h : (names table).Nodup) (name : String)
    (value : β) : (names (insert name value table)).Nodup := by
  rw [names_insert]
  split
  · exact h
  · rename_i hname
    rw [List.nodup_append]
    refine ⟨h, List.nodup_singleton name, ?_⟩
    intro a ha b hb hab
    rw [List.mem_singleton.mp hb] at hab
    exact hname (hab ▸ ha)

theorem names_insertMany_nodup {table : List (String × β)} (h : (names table).Nodup)
    (entries : List (String × β)) : (names (insertMany table entries)).Nodup := by
  induction entries generalizing table with
  | nil => exact h
  | cons first rest ih => exact ih (names_insert_nodup h first.1 first.2)

theorem mem_insertSorted {entry e : String × β} {table : List (String × β)} :
    e ∈ insertSorted entry table ↔ e = entry ∨ e ∈ table := by
  induction table with
  | nil => simp [insertSorted]
  | cons first rest ih =>
      unfold insertSorted
      split
      · simp
      · rw [List.mem_cons, ih, List.mem_cons]
        exact or_left_comm

theorem mem_sorted {e : String × β} {table : List (String × β)} : e ∈ sorted table ↔ e ∈ table := by
  induction table with
  | nil => simp [sorted]
  | cons first rest ih =>
      rw [List.mem_cons, ← ih]
      exact mem_insertSorted

theorem insertSorted_pairwise {entry : String × β} {table : List (String × β)}
    (hnew : entry.1 ∉ names table) (h : table.Pairwise fun e e' => e.1 < e'.1) :
    (insertSorted entry table).Pairwise fun e e' => e.1 < e'.1 := by
  induction table with
  | nil => exact List.pairwise_singleton _ entry
  | cons first rest ih =>
      have hfirst := List.pairwise_cons.mp h
      simp only [names, List.map_cons, List.mem_cons, not_or] at hnew
      unfold insertSorted
      split
      · rename_i hlt
        refine List.pairwise_cons.mpr ⟨fun e he => ?_, h⟩
        rcases List.mem_cons.mp he with rfl | he
        · exact hlt
        · exact lt_trans hlt (hfirst.1 e he)
      · rename_i hnot
        refine List.pairwise_cons.mpr ⟨fun e he => ?_, ih hnew.2 hfirst.2⟩
        rcases mem_insertSorted.mp he with rfl | he
        · exact lt_of_le_of_ne (not_lt.mp hnot) (Ne.symm hnew.1)
        · exact hfirst.1 e he

theorem sorted_pairwise {table : List (String × β)} (h : (names table).Nodup) :
    (sorted table).Pairwise fun e e' => e.1 < e'.1 := by
  induction table with
  | nil => exact List.Pairwise.nil
  | cons first rest ih =>
      have hfirst := List.nodup_cons.mp h
      refine insertSorted_pairwise ?_ (ih hfirst.2)
      intro hmem
      obtain ⟨e, he, hname⟩ := List.mem_map.mp hmem
      exact hfirst.1 (List.mem_map.mpr ⟨e, mem_sorted.mp he, hname⟩)

end Assoc

namespace Ty

/-- The type in a specification. -/
def specType : SlotSpec → Ty
  | .slot s => s.type
  | .bare t => t

theorem type_of_toSlot {refusal : Scalar → Fault} {spec : SlotSpec} {slot : Slot Ty}
    (h : spec.toSlot refusal = .ok slot) : slot.type = specType spec := by
  unfold SlotSpec.toSlot at h
  split at h <;> cases h <;> rfl

theorem buildFields_eq_ok {seen : List String} {specs : List (String × SlotSpec)}
    {fields : List (String × Slot Ty)} (h : buildFields seen specs = .ok fields) :
    (Assoc.names fields).Nodup ∧ (∀ name ∈ Assoc.names fields, name ∉ seen) ∧
      ∀ f ∈ fields, ∃ spec ∈ specs, f.2.type = specType spec.2 := by
  induction specs generalizing seen fields with
  | nil =>
      cases h
      simp [Assoc.names]
  | cons first rest ih =>
      obtain ⟨name, spec⟩ := first
      unfold buildFields at h
      split at h
      · cases h
      · rename_i hnew
        split at h
        · cases h
        · rename_i slot hslot
          cases hrest : buildFields (name :: seen) rest with
          | error fault =>
              rw [hrest] at h
              cases h
          | ok others =>
              rw [hrest] at h
              cases h
              obtain ⟨hnodup, hunseen, htypes⟩ := ih hrest
              refine ⟨List.nodup_cons.mpr ⟨fun hmem => ?_, hnodup⟩, fun n hn => ?_, fun f hf => ?_⟩
              · exact hunseen name hmem List.mem_cons_self
              · rcases List.mem_cons.mp hn with rfl | hn
                · simpa using hnew
                · exact fun hseen => hunseen n hn (List.mem_cons_of_mem name hseen)
              · rcases List.mem_cons.mp hf with rfl | hf
                · exact ⟨_, List.mem_cons_self, type_of_toSlot hslot⟩
                · obtain ⟨spec', hspec', htype⟩ := htypes f hf
                  exact ⟨spec', List.mem_cons_of_mem _ hspec', htype⟩

theorem buildSlots_eq_ok {specs : List SlotSpec} {slots : List (Slot Ty)}
    (h : buildSlots specs = .ok slots) : ∀ s ∈ slots, ∃ spec ∈ specs, s.type = specType spec := by
  induction specs generalizing slots with
  | nil =>
      cases h
      simp
  | cons first rest ih =>
      unfold buildSlots at h
      split at h
      · cases h
      · rename_i slot hslot
        cases hrest : buildSlots rest with
        | error fault =>
            rw [hrest] at h
            cases h
        | ok others =>
            rw [hrest] at h
            cases h
            intro s hs
            rcases List.mem_cons.mp hs with rfl | hs
            · exact ⟨first, List.mem_cons_self, type_of_toSlot hslot⟩
            · obtain ⟨spec, hspec, htype⟩ := ih hrest s hs
              exact ⟨spec, List.mem_cons_of_mem first hspec, htype⟩

theorem wellFormed_of_buildTuple {specs : List SlotSpec} {t : Ty}
    (hspecs : ∀ spec ∈ specs, (specType spec).WellFormed) (h : buildTuple specs = .ok t) :
    t.WellFormed := by
  unfold buildTuple at h
  split at h
  · cases h
  · rename_i slots hslots
    split at h
    · cases h
    · rename_i hplaced
      cases h
      refine wellFormed_iff.mpr ⟨hplaced, fun p hp => ?_⟩
      obtain ⟨s, hs, rfl⟩ := List.mem_map.mp hp
      obtain ⟨spec, hspec, htype⟩ := buildSlots_eq_ok hslots s hs
      rw [htype]
      exact hspecs spec hspec

theorem mem_of_mem_distinct {m : Ty} {members : List Ty} (h : m ∈ distinct members) :
    m ∈ members := by
  induction members with
  | nil => exact h
  | cons first rest ih =>
      rcases List.mem_cons.mp h with rfl | h
      · exact List.mem_cons_self
      · exact List.mem_cons_of_mem first (ih (List.mem_of_mem_filter h))

theorem distinct_pairwise (members : List Ty) :
    (distinct members).Pairwise fun m m' => (m == m') = false := by
  induction members with
  | nil => exact List.Pairwise.nil
  | cons first rest ih =>
      refine List.pairwise_cons.mpr ⟨fun m hm => ?_, ih.filter _⟩
      simpa using (List.mem_filter.mp hm).2

theorem buildUnion_eq_ok {members : List Ty} {t : Ty} (h : buildUnion members = .ok t) :
    t = .union (distinct members) ∧ distinct members ≠ [] ∧ ∀ m ∈ members, m.foreign? = none := by
  unfold buildUnion at h
  split at h
  · cases h
  · rename_i hnative
    rw [List.findSome?_eq_none_iff] at hnative
    split at h
    · cases h
    · rename_i hne
      cases h
      exact ⟨rfl, hne, hnative⟩

theorem wellFormed_of_buildUnion {members : List Ty} {t : Ty}
    (hmembers : ∀ m ∈ members, m.WellFormed) (h : buildUnion members = .ok t) : t.WellFormed := by
  obtain ⟨rfl, hne, hnative⟩ := buildUnion_eq_ok h
  refine wellFormed_iff.mpr ⟨⟨hne, ?_, distinct_pairwise members⟩, fun p hp => ?_⟩
  · exact fun m hm => hnative m (mem_of_mem_distinct hm)
  · exact hmembers p (mem_of_mem_distinct hp)

theorem distinct_eq_self {members : List Ty} (h : members.Pairwise fun m m' => (m == m') = false) :
    distinct members = members := by
  induction members with
  | nil => rfl
  | cons first rest ih =>
      rw [List.pairwise_cons] at h
      unfold distinct
      rw [ih h.2, List.filter_eq_self.mpr]
      intro m hm
      rw [h.1 m hm]
      rfl

theorem buildUnion_of_native {members : List Ty} (hne : members ≠ [])
    (hnative : ∀ m ∈ members, m.foreign? = none) :
    buildUnion members = .ok (.union (distinct members)) := by
  have hforeign : members.findSome? foreign? = none := List.findSome?_eq_none_iff.mpr hnative
  cases members with
  | nil => exact absurd rfl hne
  | cons first rest =>
      unfold buildUnion
      rw [hforeign]
      rfl

theorem flatUnion_eq_ok {types : List Ty} {t : Ty} (h : flatUnion types = .ok t) :
    ∃ u, buildUnion (types.flatMap ownMembers) = .ok u ∧ (t = u ∨ u = .union [t]) := by
  unfold flatUnion at h
  split at h
  · rename_i m hbuild
    cases h
    exact ⟨_, hbuild, Or.inr rfl⟩
  · exact ⟨t, h, Or.inl rfl⟩

theorem flatUnion_of_native {types : List Ty} (hne : types.flatMap ownMembers ≠ [])
    (hnative : ∀ m ∈ types.flatMap ownMembers, m.foreign? = none) :
    ∃ t, flatUnion types = .ok t := by
  unfold flatUnion
  rw [buildUnion_of_native hne hnative]
  split
  · exact ⟨_, rfl⟩
  · exact ⟨_, rfl⟩

theorem wellFormed_of_flatUnion {types : List Ty} {t : Ty}
    (hmembers : ∀ m ∈ types.flatMap ownMembers, m.WellFormed) (h : flatUnion types = .ok t) :
    t.WellFormed := by
  obtain ⟨u, hbuild, rfl | rfl⟩ := flatUnion_eq_ok h
  · exact wellFormed_of_buildUnion hmembers hbuild
  · exact (wellFormed_of_buildUnion hmembers hbuild).part (by simp [parts])

theorem ownMembers_of_ne_union {t : Ty} (h : ∀ members, t ≠ .union members) :
    t.ownMembers = [t] := by
  cases t with
  | union members => exact absurd rfl (h members)
  | _ => rfl

theorem ownMembers_of_flatUnion {types : List Ty} {t : Ty}
    (hflat : ∀ m ∈ types.flatMap ownMembers, ∀ members, m ≠ .union members)
    (h : flatUnion types = .ok t) : t.ownMembers = distinct (types.flatMap ownMembers) := by
  obtain ⟨u, hbuild, rfl | rfl⟩ := flatUnion_eq_ok h
  · rw [(buildUnion_eq_ok hbuild).1, ownMembers]
  · have hmembers := (buildUnion_eq_ok hbuild).1
    injection hmembers with hmembers
    have ht : t ∈ types.flatMap ownMembers := mem_of_mem_distinct (by simp [← hmembers])
    rw [ownMembers_of_ne_union (hflat t ht), hmembers]

end Ty

namespace ObjectTy

theorem wellFormed_of_build {specs : List (String × SlotSpec)} {index : Option (IndexRule Ty)}
    {o : ObjectTy} (hspecs : ∀ spec ∈ specs, (Ty.specType spec.2).WellFormed)
    (hindex : ∀ r, index = some r → ∃ key value readonly,
      IndexRule.build key value readonly = .ok r ∧ key.WellFormed ∧ value.WellFormed)
    (h : build specs index = .ok o) : o.toTy.WellFormed := by
  unfold build at h
  cases hfields : Ty.buildFields [] specs with
  | error fault =>
      rw [hfields] at h
      cases h
  | ok fields =>
      rw [hfields] at h
      cases h
      obtain ⟨hnodup, -, htypes⟩ := Ty.buildFields_eq_ok hfields
      refine Ty.wellFormed_object hnodup (fun f hf => ?_) fun r hr => ?_
      · obtain ⟨spec, hspec, htype⟩ := htypes f hf
        rw [htype]
        exact hspecs spec hspec
      · obtain ⟨key, value, readonly, hbuild, hkey, hvalue⟩ := hindex r hr
        unfold IndexRule.build at hbuild
        split at hbuild
        · rename_i hdomain
          cases hbuild
          exact ⟨hdomain, hkey, hvalue⟩
        · cases hbuild

end ObjectTy

namespace MappedTy

theorem wellFormed_of_build {keys : List String} {values : List (String × Ty)}
    {readonly optional : List (String × Bool)} {m : MappedTy}
    (hvalues : ∀ entry ∈ values, entry.2.WellFormed)
    (h : build keys values readonly optional = .ok m) : m.toTy.WellFormed := by
  unfold build at h
  have hnodup : (Assoc.names (Assoc.ofList values)).Nodup :=
    Assoc.names_insertMany_nodup (by simp [Assoc.names]) values
  dsimp only at h
  split at h
  · cases h
  · split at h
    · cases h
    · rename_i hnative
      split_ifs at h
      cases h
      have hnative' : ∀ entry ∈ Assoc.ofList values, entry.2.foreign? = none := by
        simpa [foreignValue?, List.findSome?_eq_none_iff] using hnative
      refine Ty.wellFormed_iff.mpr ⟨⟨?_, fun e he => ?_⟩, fun p hp => ?_⟩
      · simpa [Assoc.names, List.pairwise_map] using Assoc.sorted_pairwise hnodup
      · obtain ⟨entry, hentry, rfl⟩ := List.mem_map.mp he
        exact hnative' entry (Assoc.mem_sorted.mp hentry)
      · simp only [toTy, Ty.parts, List.map_map, List.mem_map] at hp
        obtain ⟨entry, hentry, rfl⟩ := hp
        rcases Assoc.mem_insertMany (Assoc.mem_sorted.mp hentry) with hnil | hmem
        · cases hnil
        · exact hvalues entry hmem

end MappedTy

/-- The types that callers can build, part by part. -/
inductive Built : Ty → Prop
  | primitive (name : String) : Built (.primitive name)
  | literal (l : Literal) : Built (.literal l)
  | named (name : String) : Built (.named name)
  | foreign (v : Scalar) : Built (.foreign v)
  | array {element : Ty} (helement : Built element) (readonly : Bool) :
      Built (.array element readonly)
  | tuple {specs : List SlotSpec} {t : Ty} (hspecs : ∀ spec ∈ specs, Built (Ty.specType spec))
      (h : Ty.buildTuple specs = .ok t) : Built t
  | union {members : List Ty} {t : Ty} (hmembers : ∀ m ∈ members, Built m)
      (h : Ty.buildUnion members = .ok t) : Built t
  | object {specs : List (String × SlotSpec)} {o : ObjectTy}
      (hspecs : ∀ spec ∈ specs, Built (Ty.specType spec.2))
      (h : ObjectTy.build specs none = .ok o) : Built o.toTy
  | indexed {specs : List (String × SlotSpec)} {key value : Ty} {readonly : Bool}
      {r : IndexRule Ty} {o : ObjectTy} (hspecs : ∀ spec ∈ specs, Built (Ty.specType spec.2))
      (hkey : Built key) (hvalue : Built value) (hr : IndexRule.build key value readonly = .ok r)
      (h : ObjectTy.build specs (some r) = .ok o) : Built o.toTy
  | mapped {keys : List String} {values : List (String × Ty)}
      {readonly optional : List (String × Bool)} {m : MappedTy}
      (hvalues : ∀ entry ∈ values, Built entry.2)
      (h : MappedTy.build keys values readonly optional = .ok m) : Built m.toTy

theorem Built.wellFormed {t : Ty} (h : Built t) : t.WellFormed := by
  induction h with
  | primitive name => exact Ty.wellFormed_iff.mpr ⟨trivial, by simp [Ty.parts]⟩
  | literal l => exact Ty.wellFormed_iff.mpr ⟨trivial, by simp [Ty.parts]⟩
  | named name => exact Ty.wellFormed_iff.mpr ⟨trivial, by simp [Ty.parts]⟩
  | foreign v => exact Ty.wellFormed_iff.mpr ⟨trivial, by simp [Ty.parts]⟩
  | array _ _ ih => exact Ty.wellFormed_iff.mpr ⟨trivial, by simpa [Ty.parts] using ih⟩
  | tuple _ h ih => exact Ty.wellFormed_of_buildTuple ih h
  | union _ h ih => exact Ty.wellFormed_of_buildUnion ih h
  | object _ h ih => exact ObjectTy.wellFormed_of_build ih (by simp) h
  | indexed _ _ _ hr h ihspecs ihkey ihvalue =>
      refine ObjectTy.wellFormed_of_build ihspecs (fun r' hr' => ?_) h
      cases hr'
      exact ⟨_, _, _, hr, ihkey, ihvalue⟩
  | mapped _ h ih => exact MappedTy.wellFormed_of_build ih h

end StructuralTypes
