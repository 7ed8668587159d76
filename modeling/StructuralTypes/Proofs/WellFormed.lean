import StructuralTypes.Declarations
import StructuralTypes.Proofs.Inside

namespace StructuralTypes

namespace Ty

/-- What the builders see to at the outermost level of a type. -/
def WellMade : Ty → Prop
  | .object fields index =>
    (Assoc.names fields).Nodup ∧ index.all (fun r => r.key.isKeyDomain) = true
  | .tuple elements => misplacedPosition? false 0 elements = none
  | .union members =>
    members ≠ [] ∧ (∀ m ∈ members, m.foreign? = none) ∧
      members.Pairwise fun m m' => (m == m') = false
  | .mapped entries =>
    (Assoc.names entries).Pairwise (· < ·) ∧ ∀ e ∈ entries, e.2.type.foreign? = none
  | _ => True

instance (t : Ty) : Decidable t.WellMade :=
  match t with
  | .object _ _ => inferInstanceAs (Decidable (_ ∧ _))
  | .tuple _ => inferInstanceAs (Decidable (_ = _))
  | .union _ => inferInstanceAs (Decidable (_ ∧ _ ∧ _))
  | .mapped _ => inferInstanceAs (Decidable (_ ∧ _))
  | .primitive _ => inferInstanceAs (Decidable True)
  | .literal _ => inferInstanceAs (Decidable True)
  | .array _ _ => inferInstanceAs (Decidable True)
  | .named _ => inferInstanceAs (Decidable True)
  | .foreign _ => inferInstanceAs (Decidable True)

def WellFormed (t : Ty) : Prop :=
  ∀ u ∈ t.inside, u.WellMade

instance (t : Ty) : Decidable t.WellFormed :=
  inferInstanceAs (Decidable (∀ u ∈ t.inside, u.WellMade))

theorem wellFormed_iff {t : Ty} :
    t.WellFormed ↔ t.WellMade ∧ ∀ p ∈ t.parts, p.WellFormed := by
  simp only [WellFormed, inside_eq t, List.forall_mem_cons, List.forall_mem_flatMap]

theorem WellFormed.wellMade {t : Ty} (h : t.WellFormed) : t.WellMade :=
  (wellFormed_iff.mp h).1

theorem WellFormed.part {p t : Ty} (h : t.WellFormed) (hp : p ∈ t.parts) : p.WellFormed :=
  (wellFormed_iff.mp h).2 p hp

theorem WellFormed.self_or_part {p t : Ty} (h : t.WellFormed) (hp : p = t ∨ p ∈ t.parts) :
    p.WellFormed := by
  rcases hp with rfl | hp
  · exact h
  · exact h.part hp

theorem WellFormed.names_nodup {fields : List (String × Slot Ty)} {index : Option (IndexRule Ty)}
    (h : (Ty.object fields index).WellFormed) : (Assoc.names fields).Nodup :=
  h.wellMade.1

theorem WellFormed.entries_nodup {entries : List (String × Slot Ty)}
    (h : (Ty.mapped entries).WellFormed) : (Assoc.names entries).Nodup := by
  apply h.wellMade.1.imp
  intro a b hlt heq
  subst heq
  exact String.lt_irrefl a hlt

theorem WellFormed.expanded {t : Ty} (h : t.WellFormed) : t.expanded.WellFormed := by
  cases t with
  | mapped entries =>
      rw [wellFormed_iff]
      exact ⟨⟨h.entries_nodup, rfl⟩, fun p hp => h.part (by simpa [Ty.parts, Ty.expanded] using hp)⟩
  | _ => exact h

theorem mem_parts_of_mem_fields {name : String} {s : Slot Ty} {fields : List (String × Slot Ty)}
    {index : Option (IndexRule Ty)} (h : (name, s) ∈ fields) :
    s.type ∈ (Ty.object fields index).parts := by
  simp only [parts, List.mem_append, List.mem_map]
  exact Or.inl ⟨(name, s), h, rfl⟩

theorem mem_parts_of_mem_entries {e : String × Slot Ty} {entries : List (String × Slot Ty)}
    (h : e ∈ entries) : e.2.type ∈ (Ty.mapped entries).parts :=
  List.mem_map.mpr ⟨e, h, rfl⟩

theorem key_mem_parts {fields : List (String × Slot Ty)} {r : IndexRule Ty} :
    r.key ∈ (Ty.object fields (some r)).parts := by
  simp [parts]

theorem value_mem_parts {fields : List (String × Slot Ty)} {r : IndexRule Ty} :
    r.value ∈ (Ty.object fields (some r)).parts := by
  simp [parts]

theorem wellFormed_object {fields : List (String × Slot Ty)} {index : Option (IndexRule Ty)}
    (hnodup : (Assoc.names fields).Nodup) (hfields : ∀ f ∈ fields, f.2.type.WellFormed)
    (hindex : ∀ r, index = some r →
      r.key.isKeyDomain = true ∧ r.key.WellFormed ∧ r.value.WellFormed) :
    (Ty.object fields index).WellFormed := by
  refine wellFormed_iff.mpr ⟨⟨hnodup, ?_⟩, fun p hp => ?_⟩
  · cases index with
    | none => rfl
    | some r => exact (hindex r rfl).1
  · rw [parts, List.mem_append, List.mem_map, List.mem_flatMap] at hp
    rcases hp with ⟨f, hf, rfl⟩ | ⟨r, hr, hp⟩
    · exact hfields f hf
    · obtain ⟨-, hkey, hvalue⟩ := hindex r (Option.mem_toList.mp hr)
      have hp' : p = r.key ∨ p = r.value := by simpa using hp
      rcases hp' with rfl | rfl
      · exact hkey
      · exact hvalue

end Ty

namespace Declarations

/-- Every declared type is well formed. -/
def WellFormed (d : Declarations) : Prop :=
  ∀ entry ∈ d.bindings, entry.2.WellFormed

instance (d : Declarations) : Decidable d.WellFormed :=
  inferInstanceAs (Decidable (∀ entry ∈ d.bindings, entry.2.WellFormed))

end Declarations

end StructuralTypes
