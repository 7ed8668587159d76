/-!
Tables from names to values that remember the order in which names first came in. A table is read by
`List.lookup`; the lemmas say what each operation does to look-ups and to the order of the names.
-/

namespace StructuralTypes.Assoc

variable {β : Type}

def names (table : List (String × β)) : List String :=
  table.map Prod.fst

def contains (table : List (String × β)) (name : String) : Bool :=
  table.any fun entry => entry.1 == name

theorem contains_iff_mem_names (table : List (String × β)) (name : String) :
    contains table name = true ↔ name ∈ names table := by
  simp [contains, names]

theorem mem_of_lookup {table : List (String × β)} {name : String} {value : β}
    (h : table.lookup name = some value) : (name, value) ∈ table := by
  obtain ⟨before, after, rfl, -⟩ := List.lookup_eq_some_iff.mp h
  simp

theorem lookup_of_mem {table : List (String × β)} (hnodup : (names table).Nodup) {name : String}
    {value : β} (h : (name, value) ∈ table) : table.lookup name = some value := by
  induction table with
  | nil => simp at h
  | cons entry rest ih =>
      obtain ⟨n, v⟩ := entry
      simp only [names, List.map_cons, List.nodup_cons] at hnodup
      rcases List.mem_cons.mp h with heq | hrest
      · simp only [Prod.mk.injEq] at heq
        simp [heq]
      · have hne : (name == n) = false := by
          apply beq_false_of_ne
          rintro rfl
          exact hnodup.1 (List.mem_map_of_mem (f := Prod.fst) hrest)
        simpa [List.lookup_cons, hne] using ih hnodup.2 hrest

theorem lookup_eq_none_iff (table : List (String × β)) (name : String) :
    table.lookup name = none ↔ name ∉ names table := by
  rw [List.lookup_eq_none_iff]
  simp only [names, List.mem_map, bne_iff_ne, ne_eq]
  constructor
  · rintro h ⟨entry, hmem, rfl⟩
    exact h entry hmem rfl
  · rintro h entry hmem rfl
    exact h ⟨entry, hmem, rfl⟩

/-- Sets the value of a name: in place when the name is there, at the end otherwise. -/
def insert (name : String) (value : β) : List (String × β) → List (String × β)
  | [] => [(name, value)]
  | entry :: rest =>
    if entry.1 = name then (name, value) :: rest else entry :: insert name value rest

@[simp] theorem lookup_insert_self (name : String) (value : β) (table : List (String × β)) :
    (insert name value table).lookup name = some value := by
  induction table with
  | nil => simp [insert]
  | cons entry rest ih =>
      unfold insert
      split
      · simp
      · rename_i h
        have h' : (name == entry.1) = false := by simpa using fun he => h he.symm
        obtain ⟨n, v⟩ := entry
        simpa [List.lookup_cons, h'] using ih

theorem lookup_insert_of_ne {name name' : String} (h : name' ≠ name) (value : β)
    (table : List (String × β)) :
    (insert name value table).lookup name' = table.lookup name' := by
  have hne : (name' == name) = false := by simpa using h
  induction table with
  | nil => simp [insert, List.lookup_cons, hne]
  | cons entry rest ih =>
      obtain ⟨n, v⟩ := entry
      unfold insert
      split
      · rename_i hn
        simp only at hn
        subst hn
        simp [List.lookup_cons, hne]
      · simp [List.lookup_cons, ih]

theorem names_insert (name : String) (value : β) (table : List (String × β)) :
    names (insert name value table) =
      if name ∈ names table then names table else names table ++ [name] := by
  induction table with
  | nil => simp [insert, names]
  | cons entry rest ih =>
      unfold insert
      split
      · rename_i h
        simp [names, h]
      · rename_i h
        simp only [names, List.map_cons, List.mem_cons] at ih ⊢
        rw [ih]
        have h' : ¬ name = entry.1 := fun he => h he.symm
        by_cases hm : name ∈ List.map Prod.fst rest <;> simp [hm, h']

def erase (name : String) (table : List (String × β)) : List (String × β) :=
  table.filter fun entry => entry.1 != name

theorem names_erase (name : String) (table : List (String × β)) :
    names (erase name table) = (names table).filter (· != name) := by
  simp [names, erase, List.filter_map, Function.comp_def]

def insertMany (table entries : List (String × β)) : List (String × β) :=
  entries.foldl (fun acc entry => insert entry.1 entry.2 acc) table

/-- The table of a list of entries, where a repeated name keeps its first place and its last
value. -/
def ofList (entries : List (String × β)) : List (String × β) :=
  insertMany [] entries

/-- Puts an entry before the first one with a greater name. -/
def insertSorted (entry : String × β) : List (String × β) → List (String × β)
  | [] => [entry]
  | e :: rest => if entry.1 < e.1 then entry :: e :: rest else e :: insertSorted entry rest

def sorted (table : List (String × β)) : List (String × β) :=
  table.foldr insertSorted []

end StructuralTypes.Assoc
