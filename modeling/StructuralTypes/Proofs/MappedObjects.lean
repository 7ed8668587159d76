import StructuralTypes.Proofs.Build
import StructuralTypes.Proofs.Equality
import StructuralTypes.Ty.Readonly

namespace StructuralTypes

namespace Assoc

variable {β γ : Type}

theorem names_map (f : String × β → γ) (table : List (String × β)) :
    names (table.map fun e => (e.1, f e)) = names table := by
  simp [names, Function.comp_def]

theorem insert_of_not_mem {name : String} {table : List (String × β)} (h : name ∉ names table)
    (value : β) : insert name value table = table ++ [(name, value)] := by
  induction table with
  | nil => rfl
  | cons entry rest ih =>
      simp only [names, List.map_cons, List.mem_cons, not_or] at h
      rw [insert, if_neg (Ne.symm h.1), ih h.2, List.cons_append]

theorem insertMany_of_nodup {table entries : List (String × β)}
    (h : (names (table ++ entries)).Nodup) : insertMany table entries = table ++ entries := by
  induction entries generalizing table with
  | nil => rw [List.append_nil]; rfl
  | cons entry rest ih =>
      have hnew : entry.1 ∉ names table := by
        intro hmem
        rw [names, List.map_append, List.nodup_append] at h
        exact h.2.2 entry.1 hmem entry.1 (by simp) rfl
      have hrest : table ++ entry :: rest = (table ++ [entry]) ++ rest := by simp
      rw [hrest] at h ⊢
      rw [← ih h, ← insert_of_not_mem hnew]
      rfl

theorem ofList_of_nodup {entries : List (String × β)} (h : (names entries).Nodup) :
    ofList entries = entries :=
  insertMany_of_nodup h

theorem map_insertSorted (f : String × β → γ) (entry : String × β) (table : List (String × β)) :
    (insertSorted entry table).map (fun e => (e.1, f e)) =
      insertSorted (entry.1, f entry) (table.map fun e => (e.1, f e)) := by
  induction table with
  | nil => rfl
  | cons e rest ih =>
      rw [insertSorted, List.map_cons, insertSorted]
      split
      · rfl
      · rw [List.map_cons, ih]

theorem map_sorted (f : String × β → γ) (table : List (String × β)) :
    (sorted table).map (fun e => (e.1, f e)) = sorted (table.map fun e => (e.1, f e)) := by
  induction table with
  | nil => rfl
  | cons entry rest ih =>
      have hinsert := map_insertSorted f entry (sorted rest)
      rw [ih] at hinsert
      exact hinsert

theorem insertSorted_perm (entry : String × β) (table : List (String × β)) :
    (insertSorted entry table).Perm (entry :: table) := by
  induction table with
  | nil => exact .refl _
  | cons e rest ih =>
      rw [insertSorted]
      split
      · exact .refl _
      · exact (ih.cons e).trans (.swap entry e rest)

theorem sorted_perm (table : List (String × β)) : (sorted table).Perm table := by
  induction table with
  | nil => exact .refl _
  | cons entry rest ih => exact (insertSorted_perm entry (sorted rest)).trans (ih.cons entry)

theorem sorted_eq_self {table : List (String × β)} (h : (names table).Pairwise (· < ·)) :
    sorted table = table := by
  induction table with
  | nil => rfl
  | cons entry rest ih =>
      obtain ⟨hfirst, hrest⟩ := List.pairwise_cons.mp h
      have hinsert : insertSorted entry rest = entry :: rest := by
        cases rest with
        | nil => rfl
        | cons next rest => exact if_pos (hfirst next.1 List.mem_cons_self)
      change insertSorted entry (sorted rest) = entry :: rest
      rw [ih hrest, hinsert]

end Assoc

namespace Slot

/-- The slot with the modifiers that are given. -/
def modify (readonly optional : Option Bool) (s : Slot Ty) : Slot Ty :=
  ⟨s.type, readonly.getD s.readonly, optional.getD s.optional⟩

end Slot

namespace ObjectTy

/-- The object with the given modifiers in every field and without its index rule. -/
def modifyFields (o : ObjectTy) (readonly optional : Option Bool) : ObjectTy :=
  (o.setIndex none).mapFields (Slot.modify readonly optional)

variable {o : ObjectTy}

theorem names_modifyFields (o : ObjectTy) (readonly optional : Option Bool) :
    Assoc.names (o.modifyFields readonly optional).fields = o.names :=
  Assoc.names_map _ o.fields

theorem wellFormed_modifyFields (h : o.toTy.WellFormed) (readonly optional : Option Bool) :
    (o.modifyFields readonly optional).toTy.WellFormed := by
  refine Ty.wellFormed_object ?_ (fun f hf => ?_) (by simp [modifyFields, mapFields, setIndex])
  · rw [names_modifyFields]
    exact h.names_nodup
  · obtain ⟨e, he, rfl⟩ := List.mem_map.mp hf
    have htype : e.2.type ∈ o.toTy.parts := Ty.mem_parts_of_mem_fields he
    exact h.part htype

theorem modifyFields_keep (o : ObjectTy) : o.modifyFields none none = o.setIndex none := by
  simp [modifyFields, mapFields, setIndex, Slot.modify]

theorem modifyFields_readonly (o : ObjectTy) (flag : Bool) :
    o.modifyFields (some flag) none = (o.setIndex none).setReadonly flag :=
  rfl

theorem modifyFields_optional (o : ObjectTy) (flag : Bool) :
    o.modifyFields none (some flag) = (o.setIndex none).setOptional flag :=
  rfl

end ObjectTy

namespace MappedTy

variable {o : ObjectTy} {m : MappedTy}

theorem strayNames_self {β : Type} {fields : List (String × β)} (f : String × β → Bool) :
    (strayNames (.ofList (Assoc.names fields)) (fields.map fun e => (e.1, f e))).isEmpty =
      true := by
  rw [strayNames, Assoc.names_map]
  simp [Names.isEmpty_iff]

/-- The mapped type over an object is the sorted table of its fields with the given modifiers. -/
theorem ofObject_eq (hnodup : o.names.Nodup) (hnative : ∀ f ∈ o.fields, f.2.type.foreign? = none)
    (readonly optional : Option Bool) :
    ofObject o readonly optional =
      .ok ⟨Assoc.sorted (o.modifyFields readonly optional).fields⟩ := by
  have htable : ∀ {β : Type} (f : String × Slot Ty → β),
      Assoc.ofList (o.fields.map fun e => (e.1, f e)) = o.fields.map fun e => (e.1, f e) := by
    intro β f
    apply Assoc.ofList_of_nodup
    rwa [Assoc.names_map]
  have hlookup : ∀ {β : Type} (f : String × Slot Ty → β), ∀ e ∈ o.fields,
      (o.fields.map fun e => (e.1, f e)).lookup e.1 = some (f e) := by
    intro β f e he
    apply Assoc.lookup_of_mem
    · rwa [Assoc.names_map]
    · exact List.mem_map_of_mem (f := fun e => (e.1, f e)) he
  have hforeign : foreignValue? (o.fields.map fun e => (e.1, e.2.type)) = none := by
    rw [foreignValue?, List.findSome?_eq_none_iff, List.forall_mem_map]
    exact fun e he => by rw [hnative e he, Option.map_none]
  rw [ofObject, build]
  simp only [htable]
  rw [Assoc.names_map, ObjectTy.names, if_neg (not_not.mpr rfl), hforeign]
  simp only [strayNames_self, Bool.true_eq_false, if_false]
  -- Each entry of the three tables is read back at its name.
  refine congrArg (fun entries => Except.ok (mk entries)) ?_
  rw [Assoc.map_sorted, List.map_map]
  refine congrArg Assoc.sorted (List.map_congr_left fun e he => ?_)
  simp only [Function.comp_apply, hlookup _ e he, Option.getD_some]
  rfl

theorem ofObject_expand (h : m.toTy.WellFormed) : ofObject m.expand none none = .ok m := by
  have hnodup : m.expand.names.Nodup := h.entries_nodup
  rw [ofObject_eq hnodup h.wellMade.2, ObjectTy.modifyFields_keep]
  exact congrArg (fun entries => Except.ok (mk entries)) (Assoc.sorted_eq_self h.wellMade.1)

theorem expand_sorted_beq (h : o.toTy.WellFormed) (hindex : o.index = none) :
    (expand ⟨Assoc.sorted o.fields⟩).toTy == o.toTy := by
  obtain ⟨fields, index⟩ := o
  cases hindex
  refine (Ty.Alike.object (Assoc.sorted_perm fields).length_eq (fun name s hs => ?_) .none).beq
  have hmem := Assoc.mem_sorted.mp hs
  exact ⟨s, Assoc.lookup_of_mem h.names_nodup hmem,
    Ty.beq_refl (h.part (Ty.mem_parts_of_mem_fields hmem)), rfl, rfl⟩

theorem exists_ofObject (h : o.toTy.WellFormed) (hnative : ∀ f ∈ o.fields, f.2.type.foreign? = none)
    (readonly optional : Option Bool) :
    ∃ m, ofObject o readonly optional = .ok m ∧
      m.expand.toTy == (o.modifyFields readonly optional).toTy :=
  ⟨_, ofObject_eq h.names_nodup hnative readonly optional,
    expand_sorted_beq (ObjectTy.wellFormed_modifyFields h readonly optional) rfl⟩

/-- A mapped type comes back from the object it stands for, and the mapped type over an object with
a modifier stands for the object with this modifier set, apart from the index rule. -/
theorem mapped_object_round_trip :
    (∀ m : MappedTy, m.toTy.WellFormed → ofObject m.expand none none = .ok m) ∧
    ∀ o : ObjectTy, o.toTy.WellFormed → (∀ f ∈ o.fields, f.2.type.foreign? = none) →
      (∃ m, ofObject o none none = .ok m ∧ m.expand.toTy == (o.setIndex none).toTy) ∧
      (∃ m, ofObject o (some true) none = .ok m ∧
        m.expand.toTy == ((o.setIndex none).setReadonly true).toTy) ∧
      (∃ m, ofObject o none (some true) = .ok m ∧
        m.expand.toTy == ((o.setIndex none).setOptional true).toTy) ∧
      (∃ m, ofObject o none (some false) = .ok m ∧
        m.expand.toTy == ((o.setIndex none).setOptional false).toTy) ∧
      ∃ m c, ofObject o (some false) none = .ok m ∧ (o.setIndex none).toTy.copy = .ok c ∧
        m.expand.toTy == c := by
  refine ⟨fun m hm => ofObject_expand hm, fun o ho hnative => ?_⟩
  have hexists := exists_ofObject ho hnative
  refine ⟨?_, ?_, ?_, ?_, ?_⟩
  · rw [← ObjectTy.modifyFields_keep]
    exact hexists none none
  · rw [← ObjectTy.modifyFields_readonly]
    exact hexists (some true) none
  · rw [← ObjectTy.modifyFields_optional]
    exact hexists none (some true)
  · rw [← ObjectTy.modifyFields_optional]
    exact hexists none (some false)
  · -- A copy of an object is the object with the readonly modifier taken away.
    obtain ⟨m, hm, hbeq⟩ := hexists (some false) none
    rw [ObjectTy.modifyFields_readonly] at hbeq
    exact ⟨m, _, hm, rfl, hbeq⟩

/-- A profile whose fields are not in the order of their names, with a rule for all others. -/
def profile : ObjectTy :=
  ⟨[("name", ⟨.string, true, false⟩), ("age", ⟨.number, false, true⟩),
    ("friends", ⟨.array (.named "Profile") true, true, true⟩)],
    some ⟨.string, .boolean, true⟩⟩

def settings : MappedTy :=
  ⟨[("dark", ⟨.boolean, true, false⟩), ("zoom", ⟨.number, false, true⟩)]⟩

theorem mapped_object_round_trip_profile :
    ofObject settings.expand none none = .ok settings ∧
      (∃ m, ofObject profile (some true) none = .ok m ∧
        Assoc.names m.entries = ["age", "friends", "name"] ∧
        m.expand.toTy == ((profile.setIndex none).setReadonly true).toTy) ∧
      ∃ m c, ofObject profile (some false) none = .ok m ∧
        (profile.setIndex none).toTy.copy = .ok c ∧ m.expand.toTy == c := by
  obtain ⟨hmapped, hobject⟩ := mapped_object_round_trip
  obtain ⟨-, ⟨m, hm, hbeq⟩, -, -, hcopy⟩ := hobject profile (by decide) (by decide)
  refine ⟨hmapped settings (by decide), ⟨m, hm, ?_, hbeq⟩, hcopy⟩
  cases hm
  rfl

end MappedTy

end StructuralTypes
