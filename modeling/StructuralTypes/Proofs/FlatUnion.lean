import StructuralTypes.Proofs.Branches
import StructuralTypes.Proofs.StructuralEquality

namespace StructuralTypes.Ty

section Flat

variable {t m leaf : Ty}

/-- No union, or a union of two or more members that differ, none of which is a union. -/
def Flat : Ty → Prop
  | .union members =>
    2 ≤ members.length ∧ (members.Pairwise fun m m' => (m == m') = false) ∧
      ∀ m ∈ members, ∀ ms, m ≠ .union ms
  | _ => True

/-- A flat type whose members are the leaves of the given types, equal ones taken together. -/
structure Flattens (types : List Ty) (t : Ty) : Prop where
  flat : t.Flat
  exists_leaf : ∀ m ∈ t.ownMembers, ∃ a ∈ types, Leaf m a
  exists_member : ∀ a ∈ types, ∀ leaf, Leaf leaf a → ∃ m ∈ t.ownMembers, m == leaf

theorem flat_of_ne_union (h : ∀ members, t ≠ .union members) : t.Flat := by
  cases t with
  | union members => exact absurd rfl (h members)
  | _ => trivial

theorem leaf_iff_ownMembers : Leaf leaf t ↔ ∃ m ∈ t.ownMembers, Leaf leaf m := by
  rcases t.ownMembers_cases with ⟨members, rfl⟩ | ⟨-, hself⟩
  · exact leaf_union_iff
  · simp [hself]

theorem Flat.mem_ownMembers_iff (h : t.Flat) : m ∈ t.ownMembers ↔ Leaf m t := by
  rcases t.ownMembers_cases with ⟨members, rfl⟩ | ⟨hlone, hself⟩
  · rw [leaf_union_iff]
    constructor
    · intro hm
      exact ⟨m, hm, .self (h.2.2 m hm)⟩
    · rintro ⟨m', hm', hleaf⟩
      rw [(leaf_iff_eq (h.2.2 m' hm')).mp hleaf]
      exact hm'
  · rw [hself, List.mem_singleton, leaf_iff_eq hlone]

end Flat

section Distinct

variable {first m : Ty} {rest members : List Ty}

theorem distinct_eq_singleton_iff (hwf : ∀ m ∈ rest, m.WellFormed) :
    distinct (first :: rest) = [m] ↔ m = first ∧ ∀ m' ∈ rest, first == m' := by
  have hdropped : (distinct rest).filter (fun m' => !(first == m')) = [] ↔
      ∀ m' ∈ rest, first == m' := by
    rw [List.filter_eq_nil_iff]
    constructor
    · intro h m' hm'
      obtain ⟨k, hk, hbeq⟩ := exists_mem_distinct hwf hm'
      exact beq_trans (by simpa using h k hk) hbeq
    · intro h k hk
      simp [h k (mem_of_mem_distinct hk)]
  rw [distinct, List.cons.injEq, hdropped, eq_comm]

theorem ne_union_of_distinct (hwf : ∀ m ∈ members, m.WellFormed)
    (h : ∀ m ∈ distinct members, ∀ ms, m ≠ .union ms) : ∀ m ∈ members, ∀ ms, m ≠ .union ms := by
  rintro m hm ms rfl
  obtain ⟨k, hk, hbeq⟩ := exists_mem_distinct hwf hm
  cases alike_of_beq hbeq with
  | union forth back => exact h _ hk _ rfl

end Distinct

section Result

variable {types members : List Ty} {t leaf : Ty}

/-- A member alone, or a union of two or more members. -/
inductive Joins : List Ty → Ty → Prop
  | alone (m : Ty) : Joins [m] m
  | union {members : List Ty} (h : 2 ≤ members.length) : Joins members (.union members)

theorem Joins.leaf_iff (h : Joins members t) : Leaf leaf t ↔ ∃ m ∈ members, Leaf leaf m := by
  cases h with
  | alone => simp
  | union => exact leaf_union_iff

theorem wellFormed_of_ownMembers (h : ∀ a ∈ types, a.WellFormed ∧ a.foreign? = none) :
    ∀ m ∈ types.flatMap ownMembers, m.WellFormed ∧ m.foreign? = none := by
  intro m hm
  obtain ⟨a, ha, hma⟩ := List.mem_flatMap.mp hm
  obtain ⟨hwf, hnative⟩ := h a ha
  rcases a.ownMembers_cases with ⟨members, rfl⟩ | ⟨-, hself⟩
  · exact ⟨hwf.part hma, hwf.wellMade.2.1 m hma⟩
  · rw [hself, List.mem_singleton] at hma
    rw [hma]
    exact ⟨hwf, hnative⟩

theorem flatMap_ownMembers_ne_nil (hne : types ≠ []) (h : ∀ a ∈ types, a.WellFormed) :
    types.flatMap ownMembers ≠ [] := by
  obtain ⟨a, ha⟩ := List.exists_mem_of_ne_nil types hne
  intro hnil
  have hown : a.ownMembers = [] := List.flatMap_eq_nil_iff.mp hnil a ha
  rcases a.ownMembers_cases with ⟨members, rfl⟩ | ⟨-, hself⟩
  · exact (h _ ha).wellMade.1 hown
  · rw [hself] at hown
    cases hown

theorem flatUnion_joins (hne : types.flatMap ownMembers ≠ [])
    (hnative : ∀ m ∈ types.flatMap ownMembers, m.foreign? = none) :
    ∃ t, flatUnion types = .ok t ∧ Joins (distinct (types.flatMap ownMembers)) t := by
  unfold flatUnion
  rw [buildUnion_of_native hne hnative]
  obtain ⟨first, rest, hcons⟩ := List.exists_cons_of_ne_nil hne
  rw [hcons, distinct]
  cases (distinct rest).filter fun m' => !(first == m') with
  | nil => exact ⟨first, rfl, .alone first⟩
  | cons m ms => exact ⟨_, rfl, .union (by simp)⟩

theorem Joins.leaves (hwf : ∀ m ∈ types.flatMap ownMembers, m.WellFormed)
    (h : Joins (distinct (types.flatMap ownMembers)) t) :
    (∀ leaf, Leaf leaf t → ∃ a ∈ types, Leaf leaf a) ∧
      ∀ a ∈ types, ∀ leaf, Leaf leaf a → ∃ leaf', Leaf leaf' t ∧ leaf' == leaf := by
  constructor
  · intro leaf hleaf
    obtain ⟨m, hm, hleaf⟩ := h.leaf_iff.mp hleaf
    obtain ⟨a, ha, hma⟩ := List.mem_flatMap.mp (mem_of_mem_distinct hm)
    exact ⟨a, ha, leaf_iff_ownMembers.mpr ⟨m, hma, hleaf⟩⟩
  · intro a ha leaf hleaf
    obtain ⟨m, hm, hleaf⟩ := leaf_iff_ownMembers.mp hleaf
    obtain ⟨k, hk, hbeq⟩ := exists_mem_distinct hwf (List.mem_flatMap.mpr ⟨a, ha, hm⟩)
    obtain ⟨leaf', hleaf', hbeq'⟩ := hleaf.of_beq' hbeq
    exact ⟨leaf', h.leaf_iff.mpr ⟨k, hk, hleaf'⟩, hbeq'⟩

/-- The union of distinct members is flat exactly when none of the members was a union, or all of
them were equal and the first one flat. -/
theorem Joins.flat_iff (hne : members ≠ []) (hwf : ∀ m ∈ members, m.WellFormed)
    (h : Joins (distinct members) t) :
    t.Flat ↔ (∀ m ∈ members, ∀ ms, m ≠ .union ms) ∨
      ∃ first rest, members = first :: rest ∧ first.Flat ∧ ∀ m ∈ rest, first == m := by
  obtain ⟨first, rest, rfl⟩ := List.exists_cons_of_ne_nil hne
  have hsingle : ∀ m, distinct (first :: rest) = [m] ↔ m = first ∧ ∀ m' ∈ rest, first == m' :=
    fun m => distinct_eq_singleton_iff fun m' hm' => hwf m' (List.mem_cons_of_mem first hm')
  generalize hkept : distinct (first :: rest) = kept at h
  cases h with
  | alone =>
      obtain ⟨rfl, hequal⟩ := (hsingle t).mp hkept
      constructor
      · exact fun hflat => Or.inr ⟨t, rest, rfl, hflat, hequal⟩
      · rintro (hlone | ⟨first, rest', heq, hflat, -⟩)
        · exact flat_of_ne_union (hlone t List.mem_cons_self)
        · cases heq
          exact hflat
  | union hlength =>
      constructor
      · rintro ⟨-, -, hlone⟩
        rw [← hkept] at hlone
        exact Or.inl (ne_union_of_distinct hwf hlone)
      · rintro (hlone | ⟨first', rest', heq, -, hequal⟩)
        · refine ⟨hlength, hkept ▸ distinct_pairwise _, fun m hm => hlone m ?_⟩
          exact mem_of_mem_distinct (hkept ▸ hm)
        · -- Only one member is kept of equal ones.
          cases heq
          rw [← hkept, (hsingle first).mpr ⟨rfl, hequal⟩] at hlength
          simp at hlength

theorem flattens_iff_flat (hleaf : ∀ leaf, Leaf leaf t → ∃ a ∈ types, Leaf leaf a)
    (hmember : ∀ a ∈ types, ∀ leaf, Leaf leaf a → ∃ leaf', Leaf leaf' t ∧ leaf' == leaf) :
    Flattens types t ↔ t.Flat := by
  constructor
  · exact Flattens.flat
  · refine fun hflat => ⟨hflat, fun m hm => hleaf m (hflat.mem_ownMembers_iff.mp hm), ?_⟩
    intro a ha leaf hleaf
    obtain ⟨leaf', hleaf', hbeq⟩ := hmember a ha leaf hleaf
    exact ⟨leaf', hflat.mem_ownMembers_iff.mpr hleaf', hbeq⟩

/-- The union of types joins the first ones of the members of the unions among them and of the other
types. It keeps the leaves; it flattens the types exactly when none of these members is a union, or
when all of them are equal and the first one is flat. -/
theorem flatUnion_flattens_iff (hne : types ≠ [])
    (h : ∀ a ∈ types, a.WellFormed ∧ a.foreign? = none) :
    ∃ t, flatUnion types = .ok t ∧ Joins (firsts (types.flatMap ownMembers)) t ∧
      (∀ leaf, Leaf leaf t → ∃ a ∈ types, Leaf leaf a) ∧
      (∀ a ∈ types, ∀ leaf, Leaf leaf a → ∃ leaf', Leaf leaf' t ∧ leaf' == leaf) ∧
      (Flattens types t ↔ (∀ m ∈ types.flatMap ownMembers, ∀ ms, m ≠ .union ms) ∨
        ∃ first rest, types.flatMap ownMembers = first :: rest ∧ first.Flat ∧
          ∀ m ∈ rest, first == m) := by
  have hmembers := wellFormed_of_ownMembers h
  have hne' := flatMap_ownMembers_ne_nil hne fun a ha => (h a ha).1
  have hwf := fun m hm => (hmembers m hm).1
  obtain ⟨t, ht, hjoins⟩ := flatUnion_joins hne' fun m hm => (hmembers m hm).2
  obtain ⟨hleaf, hmember⟩ := hjoins.leaves hwf
  refine ⟨t, ht, distinct_eq_firsts _ ▸ hjoins, hleaf, hmember, ?_⟩
  rw [flattens_iff_flat hleaf hmember, hjoins.flat_iff hne' hwf]

/-- A union that stands two levels deep stays a union. -/
theorem flatUnion_two_levels :
    flatUnion [.union [.union [.string, .number], .boolean]] =
        .ok (.union [.union [.string, .number], .boolean]) ∧
      ¬ Flattens [.union [.union [.string, .number], .boolean]]
        (.union [.union [.string, .number], .boolean]) := by
  refine ⟨rfl, fun h => ?_⟩
  obtain ⟨-, -, hlone⟩ := h.flat
  exact hlone (.union [.string, .number]) List.mem_cons_self _ rfl

/-- Two unions that share a member, and a type that is none. -/
def overlapping : List Ty :=
  [.union [.string, .array .number true], .boolean, .union [.array .number true, .named "Id"]]

theorem flatUnion_flattens_overlapping :
    ∃ t, flatUnion overlapping = .ok t ∧ Flattens overlapping t ∧ t.ownMembers.length = 4 := by
  have hwf : ∀ a ∈ overlapping, a.WellFormed ∧ a.foreign? = none := by decide
  obtain ⟨t, ht, -, -, -, hiff⟩ := flatUnion_flattens_iff (by decide) hwf
  refine ⟨t, ht, hiff.mpr (Or.inl ?_), ?_⟩
  · simp [overlapping, ownMembers, string, boolean]
  · cases ht
    rfl

end Result

end StructuralTypes.Ty
