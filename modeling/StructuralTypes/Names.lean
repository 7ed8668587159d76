namespace StructuralTypes

/-- A finite set of names, listed in ascending order of their characters' code points. -/
structure Names where
  toList : List String
  ascending : toList.Pairwise (· < ·)
  deriving DecidableEq

namespace Names

instance : Membership String Names where
  mem names name := name ∈ names.toList

theorem mem_iff {name : String} {names : Names} : name ∈ names ↔ name ∈ names.toList :=
  Iff.rfl

theorem nodup (names : Names) : names.toList.Nodup := by
  refine names.ascending.imp fun {a b} hlt heq => ?_
  subst heq
  exact String.lt_irrefl a hlt

def empty : Names :=
  ⟨[], .nil⟩

def isEmpty (names : Names) : Bool :=
  names.toList.isEmpty

theorem isEmpty_iff {names : Names} : names.isEmpty = true ↔ ∀ name, name ∉ names := by
  simp [isEmpty, mem_iff, List.eq_nil_iff_forall_not_mem]

/-- Puts a name at its place in an ascending list, unless it is there. -/
def place (name : String) : List String → List String
  | [] => [name]
  | n :: rest =>
    if name < n then name :: n :: rest
    else if name = n then n :: rest
    else n :: place name rest

theorem mem_place {name a : String} {list : List String} :
    a ∈ place name list ↔ a = name ∨ a ∈ list := by
  induction list with
  | nil => simp [place]
  | cons n rest ih =>
      unfold place
      split
      · simp
      · split
        · simp_all
        · simp only [List.mem_cons, ih]
          constructor
          · rintro (h | h | h) <;> simp [h]
          · rintro (h | h | h) <;> simp [h]

theorem place_pairwise (name : String) {list : List String} (h : list.Pairwise (· < ·)) :
    (place name list).Pairwise (· < ·) := by
  induction list with
  | nil => exact List.pairwise_singleton _ name
  | cons n rest ih =>
      have hrest := List.pairwise_cons.mp h
      unfold place
      split
      · rename_i hlt
        refine List.pairwise_cons.mpr ⟨fun a ha => ?_, h⟩
        rcases List.mem_cons.mp ha with rfl | ha
        · exact hlt
        · exact String.lt_trans hlt (hrest.1 a ha)
      · rename_i hnot
        split
        · exact h
        · rename_i hne
          refine List.pairwise_cons.mpr ⟨fun a ha => ?_, ih hrest.2⟩
          rcases mem_place.mp ha with rfl | ha
          · exact Std.lt_of_le_of_ne (String.not_lt.mp hnot) (Ne.symm hne)
          · exact hrest.1 a ha

def insert (name : String) (names : Names) : Names :=
  ⟨place name names.toList, place_pairwise name names.ascending⟩

@[simp] theorem mem_insert {name a : String} {names : Names} :
    a ∈ insert name names ↔ a = name ∨ a ∈ names :=
  mem_place

def ofList (names : List String) : Names :=
  names.foldr insert empty

@[simp] theorem mem_ofList {a : String} {names : List String} : a ∈ ofList names ↔ a ∈ names := by
  induction names with
  | nil => simp [ofList, empty, mem_iff]
  | cons n rest ih =>
      simp only [ofList, List.foldr_cons, mem_insert, List.mem_cons] at ih ⊢
      rw [ih]

theorem toList_ofList {names : List String} (h : names.Pairwise (· < ·)) :
    (ofList names).toList = names := by
  induction names with
  | nil => rfl
  | cons n rest ih =>
      obtain ⟨hfirst, hrest⟩ := List.pairwise_cons.mp h
      change place n (ofList rest).toList = n :: rest
      rw [ih hrest]
      cases rest with
      | nil => rfl
      | cons next rest => exact if_pos (hfirst next List.mem_cons_self)

@[simp] theorem ofList_toList (names : Names) : ofList names.toList = names := by
  obtain ⟨list, ascending⟩ := names
  rw [mk.injEq]
  exact toList_ofList ascending

def diff (a b : Names) : Names :=
  ⟨a.toList.filter fun n => !b.toList.contains n, a.ascending.filter _⟩

@[simp] theorem mem_diff {n : String} {a b : Names} : n ∈ a.diff b ↔ n ∈ a ∧ n ∉ b := by
  simp [diff, mem_iff]

def symmDiff (a b : Names) : Names :=
  ofList ((a.diff b).toList ++ (b.diff a).toList)

end Names

end StructuralTypes
