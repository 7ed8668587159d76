import StructuralTypes.Proofs.Structure

namespace StructuralTypes

namespace Ty

/-- The same type with fields and union members in another order, at any depth. The parts of the two
types are paired; positions of tuples and entries of mapped types keep their places. -/
inductive Reordered : Ty → Ty → Prop
  | refl (t : Ty) : Reordered t t
  | object (pairs : List ((String × Slot Ty) × (String × Slot Ty)))
      {fields fields' : List (String × Slot Ty)} {index index' : Option (IndexRule Ty)}
      (hfields : (pairs.map Prod.fst).Perm fields) (hfields' : (pairs.map Prod.snd).Perm fields')
      (hframe : ∀ p ∈ pairs, SameFrame p.1 p.2)
      (htype : ∀ p ∈ pairs, Reordered p.1.2.type p.2.2.type)
      (hindex : Option.Rel (fun r q => r.readonly = q.readonly) index index')
      (hkey : ∀ r ∈ index, ∀ q ∈ index', Reordered r.key q.key)
      (hvalue : ∀ r ∈ index, ∀ q ∈ index', Reordered r.value q.value) :
      Reordered (.object fields index) (.object fields' index')
  | array {element element' : Ty} (readonly : Bool) (h : Reordered element element') :
      Reordered (.array element readonly) (.array element' readonly)
  | tuple (pairs : List (Slot Ty × Slot Ty)) (hframe : ∀ p ∈ pairs, p.1.SameModifiers p.2)
      (htype : ∀ p ∈ pairs, Reordered p.1.type p.2.type) :
      Reordered (.tuple (pairs.map Prod.fst)) (.tuple (pairs.map Prod.snd))
  | union (pairs : List (Ty × Ty)) {members members' : List Ty}
      (hmembers : (pairs.map Prod.fst).Perm members)
      (hmembers' : (pairs.map Prod.snd).Perm members') (h : ∀ p ∈ pairs, Reordered p.1 p.2) :
      Reordered (.union members) (.union members')
  | mapped (pairs : List ((String × Slot Ty) × (String × Slot Ty)))
      (hframe : ∀ p ∈ pairs, SameFrame p.1 p.2)
      (htype : ∀ p ∈ pairs, Reordered p.1.2.type p.2.2.type) :
      Reordered (.mapped (pairs.map Prod.fst)) (.mapped (pairs.map Prod.snd))

variable {s t : Ty}

theorem fieldsAlike_of_pairs {pairs : List ((String × Slot Ty) × (String × Slot Ty))}
    {fields fields' : List (String × Slot Ty)} (hnodup : (Assoc.names fields').Nodup)
    (hfields : (pairs.map Prod.fst).Perm fields) (hfields' : (pairs.map Prod.snd).Perm fields')
    (hframe : ∀ p ∈ pairs, SameFrame p.1 p.2) (htype : ∀ p ∈ pairs, p.1.2.type == p.2.2.type) :
    FieldsAlike fields fields' := by
  intro name s hs
  obtain ⟨⟨f, g⟩, hp, hf⟩ := List.mem_map.mp (hfields.mem_iff.mpr hs)
  have hf' : f = (name, s) := hf
  subst hf'
  have hg : g ∈ fields' := hfields'.mem_iff.mp (List.mem_map.mpr ⟨_, hp, rfl⟩)
  obtain ⟨hname, hreadonly, hoptional⟩ := hframe _ hp
  refine ⟨g.2, Assoc.lookup_of_mem hnodup ?_, htype _ hp, hreadonly, hoptional⟩
  have hgname : name = g.1 := hname
  rw [hgname]
  exact hg

theorem Reordered.beq (hs : s.WellFormed) (ht : t.WellFormed) (h : Reordered s t) : s == t := by
  induction h with
  | refl t => exact beq_refl hs
  | @object pairs fields fields' _ _ hfields hfields' hframe _ hindex _ _ ih ihkey ihvalue =>
      have hlength : fields.length = fields'.length := by
        rw [← hfields.length_eq, ← hfields'.length_eq, List.length_map, List.length_map]
      have hpair : ∀ p ∈ pairs, p.1.2.type == p.2.2.type := fun p hp =>
        ih p hp
          (hs.part (mem_parts_of_mem_fields (hfields.mem_iff.mp (List.mem_map_of_mem hp))))
          (ht.part (mem_parts_of_mem_fields (hfields'.mem_iff.mp (List.mem_map_of_mem hp))))
      refine (Alike.object hlength
        (fieldsAlike_of_pairs ht.names_nodup hfields hfields' hframe hpair) ?_).beq
      cases hindex with
      | none => exact .none
      | some hreadonly =>
          exact .some ⟨ihkey _ rfl _ rfl (hs.part key_mem_parts) (ht.part key_mem_parts),
            ihvalue _ rfl _ rfl (hs.part value_mem_parts) (ht.part value_mem_parts), hreadonly⟩
  | array readonly _ ih =>
      exact (Alike.array readonly (ih (hs.part (by simp [parts])) (ht.part (by simp [parts])))).beq
  | tuple pairs hframe _ ih =>
      refine (Alike.tuple (List.forall₂_map_left_iff.mpr (List.forall₂_map_right_iff.mpr
        (List.forall₂_same.mpr fun p hp => ?_)))).beq
      refine ⟨ih p hp (hs.part ?_) (ht.part ?_), (hframe p hp).1, (hframe p hp).2⟩
      · exact List.mem_map_of_mem (List.mem_map_of_mem hp)
      · exact List.mem_map_of_mem (List.mem_map_of_mem hp)
  | @union pairs members members' hmembers hmembers' _ ih =>
      have hfst : ∀ p ∈ pairs, p.1 ∈ members := fun p hp =>
        hmembers.mem_iff.mp (List.mem_map_of_mem hp)
      have hsnd : ∀ p ∈ pairs, p.2 ∈ members' := fun p hp =>
        hmembers'.mem_iff.mp (List.mem_map_of_mem hp)
      refine (Alike.union (fun m hm => ?_) fun m' hm' => ?_).beq
      · obtain ⟨p, hp, rfl⟩ := List.mem_map.mp (hmembers.mem_iff.mpr hm)
        exact ⟨p.2, hsnd p hp, ih p hp (hs.part (hfst p hp)) (ht.part (hsnd p hp))⟩
      · obtain ⟨p, hp, rfl⟩ := List.mem_map.mp (hmembers'.mem_iff.mpr hm')
        exact ⟨p.1, hfst p hp, ih p hp (hs.part (hfst p hp)) (ht.part (hsnd p hp))⟩
  | mapped pairs hframe _ ih =>
      have hpair : ∀ p ∈ pairs, p.1.2.type == p.2.2.type := fun p hp =>
        ih p hp (hs.part (mem_parts_of_mem_entries (List.mem_map_of_mem hp)))
          (ht.part (mem_parts_of_mem_entries (List.mem_map_of_mem hp)))
      exact (Alike.mapped (by simp)
        (fieldsAlike_of_pairs ht.entries_nodup (.refl _) (.refl _) hframe hpair)).beq

end Ty

namespace Assignability

variable {setting : Setting} {s s' t t' : Ty}

theorem tolerant_equal (hd : setting.declarations.WellFormed) : Tolerant setting Ty.Equal := by
  intro s t h _ _
  refine ⟨fun _ s' t' hs' ht' => ?_, fun _ _ => .equal (expanded_beq h.beq)⟩
  obtain ⟨r, hr, hbeq⟩ := resolve_of_beq hd h.wellFormed h.beq hs'
  rw [ht'] at hr
  cases hr
  exact ⟨hd.resolve h.wellFormed hs', hd.resolve h.wellFormed' ht', hbeq⟩

/-- Equal types, and so types that differ in the order of fields and union members only, are
accepted alike. -/
theorem check_congr (hd : setting.declarations.WellFormed) (hs : s.WellFormed)
    (hs' : s'.WellFormed) (ht : t.WellFormed) (ht' : t'.WellFormed)
    (hss : s == s' ∨ s.Reordered s') (htt : t == t' ∨ t.Reordered t') {v v' : Verdict}
    (h : Judged setting s t v) (h' : Judged setting s' t' v') : v.isAccepted = v'.isAccepted := by
  have hss' : Ty.Equal s s' := ⟨hs, hs', hss.elim id (·.beq hs hs')⟩
  have htt' : Ty.Equal t t' := ⟨ht, ht', htt.elim id (·.beq ht ht')⟩
  have htolerant := tolerant_equal hd
  rcases h with h | ⟨rfl, h⟩
  · rcases h' with h' | ⟨rfl, h'⟩
    · rw [Bool.eq_iff_iff, isAccepted_iff_assignable hd hs ht h,
        isAccepted_iff_assignable hd hs' ht' h']
      constructor
      · exact Assignable.of_beq hd hs hs' ht ht' hss'.beq htt'.beq
      · exact Assignable.of_beq hd hs' hs ht' ht hss'.symm.beq htt'.symm.beq
    · rw [isAccepted_of_checkSelf h', htolerant.isAccepted hd hs ht (hss'.trans htt'.symm) h]
  · rw [isAccepted_of_checkSelf h,
      htolerant.isAccepted_of_judged hd hs' ht' (hss'.symm.trans htt') h']

def crossedSwapped : Ty :=
  .object [("g", ⟨.named "P", false, false⟩), ("f", ⟨.named "A", false, false⟩)] none

theorem check_congr_crossed :
    crossedSource.Reordered crossedSwapped ∧
      ∃ v v', crossedSetting.check crossedSource
          (.union (.literal (.number (.int 1)) :: crossedMembers "Q")) = .ok v ∧
        crossedSetting.check crossedSwapped (.union (crossedMembers "Q" ++
          [.literal (.number (.float (Binary64.ofRatio false 1 1)))])) = .ok v' ∧
        v.isAccepted = v'.isAccepted := by
  have hreordered : crossedSource.Reordered crossedSwapped := by
    let f : String × Slot Ty := ("f", ⟨.named "A", false, false⟩)
    let g : String × Slot Ty := ("g", ⟨.named "P", false, false⟩)
    refine .object [(f, f), (g, g)] (.refl _) (.swap g f []) ?_ ?_ .none (by simp) (by simp)
    · simp [Ty.SameFrame, Slot.SameModifiers]
    · simp only [List.forall_mem_cons]
      exact ⟨.refl _, .refl _, by simp⟩
  have hbeq : Ty.union (.literal (.number (.int 1)) :: crossedMembers "Q") == .union
      (crossedMembers "Q" ++ [.literal (.number (.float (Binary64.ofRatio false 1 1)))]) := by
    decide +kernel
  have hv : ∃ v, crossedSetting.check crossedSource
      (.union (.literal (.number (.int 1)) :: crossedMembers "Q")) = .ok v := ⟨_, rfl⟩
  have hv' : ∃ v, crossedSetting.check crossedSwapped (.union (crossedMembers "Q" ++
      [.literal (.number (.float (Binary64.ofRatio false 1 1)))])) = .ok v := ⟨_, rfl⟩
  obtain ⟨v, hv⟩ := hv
  obtain ⟨v', hv'⟩ := hv'
  have hd : crossedSetting.declarations.WellFormed := by decide
  exact ⟨hreordered, v, v', hv, hv', check_congr hd (by decide) (by decide) (by decide) (by decide)
    (Or.inr hreordered) (Or.inl hbeq) (Or.inl hv) (Or.inl hv')⟩

end Assignability

end StructuralTypes
