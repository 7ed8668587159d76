import StructuralTypes.Proofs.Runs

namespace StructuralTypes.Assignability

theorem size_eq_sum (d : Declarations) :
    d.size = (d.bindings.map fun entry => entry.2.size).sum := by
  rw [Declarations.size, List.sum_eq_foldr, List.foldr_map]

/-- Types that are met on the way into a source and a target, through names and with mapped types
taken as objects. -/
inductive Reachable (d : Declarations) (source target : Ty) : Ty → Prop
  | source : Reachable d source target source
  | target : Reachable d source target target
  | part {u p : Ty} (h : Reachable d source target u) (hp : p ∈ u.parts) :
      Reachable d source target p
  | expanded {u : Ty} (h : Reachable d source target u) : Reachable d source target u.expanded
  | declared {name : String} {u : Ty} (h : Reachable d source target (.named name))
      (hu : d.target? name = some u) : Reachable d source target u

section Closure

variable {d : Declarations} {source target : Ty}

theorem Reachable.follow {budget : Nat} {chain : List String} {name : String} {u : Ty}
    (h : Reachable d source target (.named name)) (hu : d.follow budget chain name = .ok u) :
    Reachable d source target u := by
  induction budget using Nat.strong_induction_on generalizing chain name with
  | _ budget ih =>
      rcases Declarations.follow_cases hu with
        ⟨names, hresult⟩ | hresult | ⟨t, -, htarget, hresult⟩ | ⟨rest, next, hlt, htarget, hrest⟩
      · cases hresult
      · cases hresult
      · cases hresult
        exact .declared h htarget
      · exact ih rest hlt (.declared h htarget) hrest

theorem Reachable.resolve {u u' : Ty} (h : Reachable d source target u)
    (hu : d.resolve u = .ok u') : Reachable d source target u' := by
  cases u with
  | named name => exact h.follow hu
  | _ =>
      cases hu
      exact h

theorem Reachable.self_or_part {u p : Ty} (h : Reachable d source target u)
    (hp : p = u ∨ p ∈ u.parts) : Reachable d source target p := by
  rcases hp with rfl | hp
  · exact h
  · exact h.part hp

theorem Reachable.inside {u p : Ty} (h : Reachable d source target u) (hp : p ∈ u.inside) :
    Reachable d source target p := by
  induction u using Ty.parts_induction with
  | step u ih =>
      rcases Ty.mem_inside_iff.mp hp with rfl | ⟨q, hq, hp⟩
      · exact h
      · exact ih q hq (h.part hq) hp

theorem Reachable.wellFormed {u : Ty} (hd : d.WellFormed) (hs : source.WellFormed)
    (ht : target.WellFormed) (h : Reachable d source target u) : u.WellFormed := by
  induction h with
  | source => exact hs
  | target => exact ht
  | part _ hp ih => exact ih.part hp
  | expanded _ ih => exact ih.expanded
  | declared _ hu => exact hd _ (Declarations.mem_bindings_of_target? hu)

theorem reachable_of_asks {policy : Policy} {s t a b : Ty} (hs : Reachable d source target s)
    (ht : Reachable d source target t)
    (h : (rule policy s.expanded t.expanded).Asks s.expanded a b) :
    Reachable d source target a ∧ Reachable d source target b ∧
      a.size + b.size < s.size + t.size := by
  rcases inward_rule policy _ _ a b h with ⟨ha, rfl | hb⟩ | ⟨rfl, hb⟩
  · rw [Ty.parts_expanded] at ha
    have hlt := Ty.size_lt_of_mem_parts ha
    refine ⟨hs.part ha, ht.expanded, ?_⟩
    rw [Ty.size_expanded]
    omega
  · rw [Ty.parts_expanded] at ha hb
    have hlt := Ty.size_lt_of_mem_parts ha
    have hlt' := Ty.size_lt_of_mem_parts hb
    exact ⟨hs.part ha, ht.part hb, by omega⟩
  · rw [Ty.parts_expanded] at hb
    have hlt := Ty.size_lt_of_mem_parts hb
    refine ⟨hs.expanded, ht.part hb, ?_⟩
    rw [Ty.size_expanded]
    omega

end Closure

section Pool

variable (d : Declarations) (source target : Ty)

/-- The types inside the source, the target and the declarations. -/
def surroundings : List Ty :=
  source.inside ++ target.inside ++ d.bindings.flatMap fun entry => entry.2.inside

/-- The types at hand, each as it is and expanded. -/
def pool : List Ty :=
  surroundings d source target ++ (surroundings d source target).map Ty.expanded

/-- The size of all there is to compare. -/
def totalSize : Nat :=
  source.size + target.size + d.size

theorem length_surroundings :
    (surroundings d source target).length = totalSize d source target := by
  have hbindings : (d.bindings.flatMap fun entry => entry.2.inside).length = d.size := by
    simp only [List.length_flatMap, Ty.length_inside, size_eq_sum]
  rw [surroundings, List.length_append, List.length_append, Ty.length_inside, Ty.length_inside,
    hbindings, totalSize]

theorem length_pool : (pool d source target).length = 2 * totalSize d source target := by
  rw [pool, List.length_append, List.length_map, length_surroundings]
  omega

variable {d source target}

theorem mem_surroundings_iff {u : Ty} : u ∈ surroundings d source target ↔
    u ∈ source.inside ∨ u ∈ target.inside ∨ ∃ entry ∈ d.bindings, u ∈ entry.2.inside := by
  simp only [surroundings, List.mem_append, List.mem_flatMap, or_assoc]

theorem mem_surroundings_of_mem_parts {p u : Ty} (hp : p ∈ u.parts)
    (hu : u ∈ surroundings d source target) : p ∈ surroundings d source target := by
  rw [mem_surroundings_iff] at hu ⊢
  rcases hu with hu | hu | ⟨entry, hentry, hu⟩
  · exact Or.inl (Ty.mem_inside_of_mem_parts hp hu)
  · exact Or.inr (Or.inl (Ty.mem_inside_of_mem_parts hp hu))
  · exact Or.inr (Or.inr ⟨entry, hentry, Ty.mem_inside_of_mem_parts hp hu⟩)

theorem size_le_of_mem_surroundings {u : Ty} (hu : u ∈ surroundings d source target) :
    u.size ≤ totalSize d source target := by
  rw [totalSize]
  rcases mem_surroundings_iff.mp hu with hu | hu | ⟨entry, hentry, hu⟩
  · have hle := Ty.size_le_of_mem_inside hu
    omega
  · have hle := Ty.size_le_of_mem_inside hu
    omega
  · have hle := Ty.size_le_of_mem_inside hu
    have hentry_le : entry.2.size ≤ d.size := by
      rw [size_eq_sum]
      exact List.single_le_sum (fun _ _ => Nat.zero_le _) _
        (List.mem_map_of_mem (f := fun entry => entry.2.size) hentry)
    omega

theorem mem_pool_iff {u : Ty} : u ∈ pool d source target ↔
    ∃ x ∈ surroundings d source target, u = x ∨ u = x.expanded := by
  rw [pool, List.mem_append, List.mem_map]
  constructor
  · rintro (hu | ⟨x, hx, rfl⟩)
    · exact ⟨u, hu, Or.inl rfl⟩
    · exact ⟨x, hx, Or.inr rfl⟩
  · rintro ⟨x, hx, rfl | rfl⟩
    · exact Or.inl hx
    · exact Or.inr ⟨x, hx, rfl⟩

theorem Reachable.mem_pool {u : Ty} (h : Reachable d source target u) :
    u ∈ pool d source target := by
  induction h with
  | source =>
      exact mem_pool_iff.mpr
        ⟨source, mem_surroundings_iff.mpr (Or.inl source.self_mem_inside), Or.inl rfl⟩
  | target =>
      exact mem_pool_iff.mpr
        ⟨target, mem_surroundings_iff.mpr (Or.inr (Or.inl target.self_mem_inside)), Or.inl rfl⟩
  | part _ hp ih =>
      obtain ⟨x, hx, rfl | rfl⟩ := mem_pool_iff.mp ih
      · exact mem_pool_iff.mpr ⟨_, mem_surroundings_of_mem_parts hp hx, Or.inl rfl⟩
      · rw [Ty.parts_expanded] at hp
        exact mem_pool_iff.mpr ⟨_, mem_surroundings_of_mem_parts hp hx, Or.inl rfl⟩
  | expanded _ ih =>
      obtain ⟨x, hx, rfl | rfl⟩ := mem_pool_iff.mp ih
      · exact mem_pool_iff.mpr ⟨_, hx, Or.inr rfl⟩
      · exact mem_pool_iff.mpr ⟨x, hx, Or.inr (Ty.expanded_expanded x)⟩
  | declared _ hu =>
      have hmem := Declarations.mem_bindings_of_target? hu
      exact mem_pool_iff.mpr
        ⟨_, mem_surroundings_iff.mpr (Or.inr (Or.inr ⟨_, hmem, Ty.self_mem_inside _⟩)), Or.inl rfl⟩

theorem Reachable.size_le {u : Ty} (h : Reachable d source target u) :
    u.size ≤ totalSize d source target := by
  obtain ⟨x, hx, rfl | rfl⟩ := mem_pool_iff.mp h.mem_pool
  · exact size_le_of_mem_surroundings hx
  · rw [Ty.size_expanded]
    exact size_le_of_mem_surroundings hx

end Pool

end StructuralTypes.Assignability
