import Mathlib
import StructuralTypes.Ty.Mapped

/-!
The types inside a type. Proofs about types go by induction over the types one level inside, so
that the lists and the options of a type are met in one place only. A type is well formed when
every type inside it is as the builders make them.
-/

namespace StructuralTypes.Ty

/-- The types one level inside a type. -/
def parts : Ty → List Ty
  | .object fields index =>
    fields.map (fun f => f.2.type) ++ index.toList.flatMap fun r => [r.key, r.value]
  | .array element _ => [element]
  | .tuple elements => elements.map Slot.type
  | .union members => members
  | .mapped entries => entries.map fun f => f.2.type
  | _ => []

mutual

/-- The types inside a type, itself included. -/
def inside : Ty → List Ty
  | .object fields index =>
    .object fields index :: (insideFields fields ++ insideIndex index)
  | .array element readonly => .array element readonly :: inside element
  | .tuple elements => .tuple elements :: insideSlots elements
  | .union members => .union members :: insideMembers members
  | .mapped entries => .mapped entries :: insideFields entries
  | t => [t]
termination_by structural t => t

def insideFields : List (String × Slot Ty) → List Ty
  | [] => []
  | (_, ⟨t, _, _⟩) :: rest => inside t ++ insideFields rest
termination_by structural fields => fields

def insideIndex : Option (IndexRule Ty) → List Ty
  | none => []
  | some ⟨k, v, _⟩ => inside k ++ inside v
termination_by structural index => index

def insideSlots : List (Slot Ty) → List Ty
  | [] => []
  | ⟨t, _, _⟩ :: rest => inside t ++ insideSlots rest
termination_by structural elements => elements

def insideMembers : List Ty → List Ty
  | [] => []
  | t :: rest => inside t ++ insideMembers rest
termination_by structural members => members

end

theorem insideFields_eq (fields : List (String × Slot Ty)) :
    insideFields fields = (fields.map fun f => f.2.type).flatMap inside := by
  induction fields with
  | nil => rfl
  | cons f rest ih => simp [insideFields, ih]

theorem insideIndex_eq (index : Option (IndexRule Ty)) :
    insideIndex index = (index.toList.flatMap fun r => [r.key, r.value]).flatMap inside := by
  cases index with
  | none => rfl
  | some r => simp [insideIndex]

theorem insideSlots_eq (elements : List (Slot Ty)) :
    insideSlots elements = (elements.map Slot.type).flatMap inside := by
  induction elements with
  | nil => rfl
  | cons e rest ih => simp [insideSlots, ih]

theorem insideMembers_eq (members : List Ty) :
    insideMembers members = members.flatMap inside := by
  induction members with
  | nil => rfl
  | cons m rest ih => simp [insideMembers, ih]

theorem inside_eq (t : Ty) : t.inside = t :: t.parts.flatMap inside := by
  cases t <;>
    simp [inside, parts, insideFields_eq, insideIndex_eq, insideSlots_eq, insideMembers_eq]

theorem sizeFields_eq (fields : List (String × Slot Ty)) :
    sizeFields fields = ((fields.map fun f => f.2.type).map size).sum := by
  induction fields with
  | nil => rfl
  | cons f rest ih => simp [sizeFields, ih]

theorem sizeSlots_eq (elements : List (Slot Ty)) :
    sizeSlots elements = ((elements.map Slot.type).map size).sum := by
  induction elements with
  | nil => rfl
  | cons e rest ih => simp [sizeSlots, ih]

theorem sizeMembers_eq (members : List Ty) :
    sizeMembers members = (members.map size).sum := by
  induction members with
  | nil => rfl
  | cons m rest ih => simp [sizeMembers, ih]

theorem size_eq (t : Ty) : t.size = (t.parts.map size).sum + 1 := by
  cases t with
  | object fields index =>
      cases index with
      | none => simp [size, parts, sizeFields_eq, sizeIndex]
      | some r => simp [size, parts, sizeFields_eq, sizeIndex, add_assoc]
  | _ => simp [size, parts, sizeFields_eq, sizeSlots_eq, sizeMembers_eq]

theorem size_lt_of_mem_parts {p t : Ty} (h : p ∈ t.parts) : p.size < t.size := by
  have hle : p.size ≤ (t.parts.map size).sum :=
    List.single_le_sum (fun _ _ => Nat.zero_le _) _ (List.mem_map_of_mem h)
  rw [size_eq t]
  omega

/-- Induction over the types one level inside. -/
theorem parts_induction {P : Ty → Prop} (step : ∀ t, (∀ p ∈ t.parts, P p) → P t) (t : Ty) :
    P t := by
  induction hn : t.size using Nat.strongRecOn generalizing t with
  | _ n ih =>
      apply step
      intro p hp
      exact ih p.size (hn ▸ size_lt_of_mem_parts hp) p rfl

theorem mem_inside_iff {u t : Ty} : u ∈ t.inside ↔ u = t ∨ ∃ p ∈ t.parts, u ∈ p.inside := by
  rw [inside_eq, List.mem_cons, List.mem_flatMap]

theorem self_mem_inside (t : Ty) : t ∈ t.inside := by
  rw [mem_inside_iff]
  exact Or.inl rfl

theorem mem_inside_of_mem_parts {p u t : Ty} (hp : p ∈ u.parts) (hu : u ∈ t.inside) :
    p ∈ t.inside := by
  induction t using parts_induction with
  | step t ih =>
      rw [mem_inside_iff] at hu ⊢
      rcases hu with rfl | ⟨q, hq, hu⟩
      · exact Or.inr ⟨p, hp, self_mem_inside p⟩
      · exact Or.inr ⟨q, hq, ih q hq hu⟩

theorem length_inside (t : Ty) : t.inside.length = t.size := by
  induction t using parts_induction with
  | step t ih =>
      rw [inside_eq, size_eq, List.length_cons, List.length_flatMap]
      congr 2
      exact List.map_congr_left ih

theorem size_le_of_mem_inside {u t : Ty} (h : u ∈ t.inside) : u.size ≤ t.size := by
  induction t using parts_induction with
  | step t ih =>
      rw [mem_inside_iff] at h
      rcases h with rfl | ⟨p, hp, hu⟩
      · exact le_rfl
      · exact (ih p hp hu).trans (size_lt_of_mem_parts hp).le

@[simp] theorem parts_expanded (t : Ty) : t.expanded.parts = t.parts := by
  cases t <;> simp [expanded, parts]

@[simp] theorem size_expanded (t : Ty) : t.expanded.size = t.size := by
  rw [size_eq, size_eq, parts_expanded]

@[simp] theorem expanded_expanded (t : Ty) : t.expanded.expanded = t.expanded := by
  cases t <;> rfl

@[simp] theorem foreign?_expanded (t : Ty) : t.expanded.foreign? = t.foreign? := by
  cases t <;> rfl

@[simp] theorem isNamed_expanded (t : Ty) : t.expanded.isNamed = t.isNamed := by
  cases t <;> rfl

theorem expanded_ne_mapped (t : Ty) (entries : List (String × Slot Ty)) :
    t.expanded ≠ .mapped entries := by
  cases t <;> simp [expanded]

theorem expanded_eq_self {t : Ty} (h : ∀ entries, t ≠ .mapped entries) : t.expanded = t := by
  cases t with
  | mapped entries => exact absurd rfl (h entries)
  | _ => rfl

end StructuralTypes.Ty
