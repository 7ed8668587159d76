import StructuralTypes.Proofs.MappedObjects
import StructuralTypes.Proofs.Width

namespace StructuralTypes.ObjectTy

/-- What is done to an object type. -/
inductive Edit where
  | set (name : String) (spec : SlotSpec)
  | remove (name : String)
  | setIndex (index : Option (IndexRule Ty))

namespace Edit

/-- The name that an edit is about. -/
def name? : Edit → Option String
  | .set name _ => some name
  | .remove name => some name
  | .setIndex _ => none

def index? : Edit → Option (Option (IndexRule Ty))
  | .setIndex index => some index
  | _ => none

/-- What is set is a field or a type. -/
def Valid : Edit → Prop
  | .set _ spec => ∃ slot, spec.toSlot .notField = .ok slot
  | _ => True

theorem name?_set_ne {name n : String} (h : n ≠ name) (spec : SlotSpec) :
    (Edit.set name spec).name? ≠ some n :=
  fun heq => h (Option.some.inj heq).symm

theorem name?_remove_ne {name n : String} (h : n ≠ name) : (Edit.remove name).name? ≠ some n :=
  fun heq => h (Option.some.inj heq).symm

end Edit

def edit (o : ObjectTy) : Edit → Except Fault ObjectTy
  | .set name spec => o.insertSpec name spec
  | .remove name => .ok (o.erase name)
  | .setIndex index => .ok (o.setIndex index)

def editAll (o : ObjectTy) (edits : List Edit) : Except Fault ObjectTy :=
  edits.foldlM edit o

section Histories

variable {history : List Edit} {name : String} {e e' : Edit} {i j : Nat}

/-- The last edit that is about a name. -/
def LastEdit (history : List Edit) (name : String) (e : Edit) : Prop :=
  ∃ before after, history = before ++ e :: after ∧ e.name? = some name ∧
    ∀ e' ∈ after, e'.name? ≠ some name

/-- A name comes in at a place of a history: it is set there and not removed later, and wherever it
was set before, it was removed again in between. -/
structure EntersAt (history : List Edit) (name : String) (i : Nat) : Prop where
  isSet : ∃ spec, history[i]? = some (.set name spec)
  kept : ∀ j > i, history[j]? ≠ some (.remove name)
  fresh : ∀ j < i, ∀ spec, history[j]? = some (.set name spec) →
    ∃ k, j < k ∧ k < i ∧ history[k]? = some (.remove name)

theorem not_lastEdit_nil : ¬ LastEdit [] name e := by
  rintro ⟨before, after, h, -⟩
  simp at h

theorem lastEdit_concat :
    LastEdit (history ++ [e]) name e' ↔
      if e.name? = some name then e' = e else LastEdit history name e' := by
  constructor
  · rintro ⟨before, after, hsplit, hname, hafter⟩
    rcases List.eq_nil_or_concat after with rfl | ⟨after, last, rfl⟩
    · obtain ⟨-, heq⟩ := List.append_inj' hsplit rfl
      obtain ⟨rfl, -⟩ := List.cons_eq_cons.mp heq
      rw [if_pos hname]
    · rw [List.concat_eq_append, ← List.cons_append, ← List.append_assoc] at hsplit
      obtain ⟨hhistory, heq⟩ := List.append_inj' hsplit rfl
      obtain ⟨rfl, -⟩ := List.cons_eq_cons.mp heq
      rw [if_neg (hafter e (by simp))]
      exact ⟨before, after, hhistory, hname, fun e' he' => hafter e' (by simp [he'])⟩
  · split
    · rintro rfl
      rename_i hname
      exact ⟨history, [], rfl, hname, by simp⟩
    · rintro ⟨before, after, rfl, hname, hafter⟩
      rename_i hne
      refine ⟨before, after ++ [e], by simp, hname, fun e' he' => ?_⟩
      rcases List.mem_append.mp he' with he' | he'
      · exact hafter e' he'
      · rwa [List.mem_singleton.mp he']

theorem LastEdit.unique (h : LastEdit history name e) (h' : LastEdit history name e') : e = e' := by
  induction history using List.reverseRecOn with
  | nil => exact absurd h not_lastEdit_nil
  | append_singleton history last ih =>
      rw [lastEdit_concat] at h h'
      split at h
      · rename_i hname
        rw [if_pos hname] at h'
        rw [h, h']
      · rename_i hname
        rw [if_neg hname] at h'
        exact ih h h'

theorem getElem?_concat (history : List Edit) (e : Edit) (i : Nat) :
    (history ++ [e])[i]? =
      if i < history.length then history[i]? else if i = history.length then some e else none := by
  rw [List.getElem?_append]
  split
  · rfl
  · rename_i hle
    split
    · rename_i heq
      simp [heq]
    · rename_i hne
      exact List.getElem?_eq_none (by rw [List.length_singleton]; omega)

theorem EntersAt.lt_length (h : EntersAt history name i) : i < history.length := by
  obtain ⟨spec, hspec⟩ := h.isSet
  exact (List.getElem?_eq_some_iff.mp hspec).1

theorem EntersAt.unique (h : EntersAt history name i) (h' : EntersAt history name j) : i = j := by
  by_contra hne
  wlog hlt : i < j generalizing i j
  · exact this h' h (Ne.symm hne) (by omega)
  · obtain ⟨spec, hspec⟩ := h.isSet
    obtain ⟨k, hik, -, hk⟩ := h'.fresh i hlt spec hspec
    exact h.kept k hik hk

theorem exists_entersAt {spec : SlotSpec} (hset : history[i]? = some (.set name spec))
    (hkept : ∀ j > i, history[j]? ≠ some (.remove name)) : ∃ j, EntersAt history name j := by
  classical
  -- the first such place is where it comes in
  have hexists : ∃ i : Nat, (∃ spec, history[i]? = some (Edit.set name spec)) ∧
      ∀ j > i, history[j]? ≠ some (Edit.remove name) := ⟨i, ⟨spec, hset⟩, hkept⟩
  obtain ⟨hfirst, hfirst'⟩ := Nat.find_spec hexists
  refine ⟨Nat.find hexists, hfirst, hfirst', fun j hj spec' hspec' => ?_⟩
  have hnot := Nat.find_min hexists hj
  push Not at hnot
  obtain ⟨k, hk, hremove⟩ := hnot ⟨spec', hspec'⟩
  refine ⟨k, hk, ?_, hremove⟩
  by_contra hle
  rcases Nat.lt_or_ge (Nat.find hexists) k with hlt | hge
  · exact hfirst' k hlt hremove
  · obtain ⟨spec'', hspec''⟩ := hfirst
    rw [show k = Nat.find hexists by omega, hspec''] at hremove
    cases hremove

theorem EntersAt.concat (h : EntersAt history name i) (hkeep : e ≠ .remove name) :
    EntersAt (history ++ [e]) name i := by
  have hlt := h.lt_length
  refine ⟨?_, fun j hj => ?_, fun j hj spec hspec => ?_⟩
  · rw [getElem?_concat, if_pos hlt]
    exact h.isSet
  · rw [getElem?_concat]
    split
    · exact h.kept j hj
    · split
      · exact fun heq => hkeep (Option.some.inj heq)
      · simp
  · rw [getElem?_concat, if_pos (hj.trans hlt)] at hspec
    obtain ⟨k, hjk, hki, hk⟩ := h.fresh j hj spec hspec
    refine ⟨k, hjk, hki, ?_⟩
    rwa [getElem?_concat, if_pos (hki.trans hlt)]

theorem EntersAt.of_concat (h : EntersAt (history ++ [e]) name i) (hlt : i < history.length) :
    EntersAt history name i := by
  have hget : ∀ k, k < history.length → (history ++ [e])[k]? = history[k]? :=
    fun k hk => List.getElem?_append_left hk
  refine ⟨?_, fun j hj => ?_, fun j hj spec hspec => ?_⟩
  · rw [← hget i hlt]
    exact h.isSet
  · by_cases hjlt : j < history.length
    · rw [← hget j hjlt]
      exact h.kept j hj
    · rw [List.getElem?_eq_none (by omega)]
      simp
  · rw [← hget j (hj.trans hlt)] at hspec
    obtain ⟨k, hjk, hki, hk⟩ := h.fresh j hj spec hspec
    exact ⟨k, hjk, hki, hget k (hki.trans hlt) ▸ hk⟩

theorem entersAt_concat_of_ne (hne : e.name? ≠ some name) :
    EntersAt (history ++ [e]) name i ↔ EntersAt history name i := by
  constructor
  · intro h
    apply h.of_concat
    -- the place of the new edit is not where the name is set
    by_contra hle
    obtain ⟨spec, hspec⟩ := h.isSet
    rw [getElem?_concat, if_neg hle] at hspec
    split at hspec
    · cases Option.some.inj hspec
      exact hne rfl
    · cases hspec
  · intro h
    apply h.concat
    rintro rfl
    exact hne rfl

theorem not_entersAt_concat_remove : ¬ EntersAt (history ++ [.remove name]) name i := by
  intro h
  have hlt := h.lt_length
  rw [List.length_append, List.length_singleton] at hlt
  rcases Nat.lt_succ_iff_lt_or_eq.mp hlt with hlt | rfl
  · exact h.kept history.length hlt (by simp)
  · obtain ⟨spec, hspec⟩ := h.isSet
    simp at hspec

theorem entersAt_concat_set {spec : SlotSpec} :
    EntersAt (history ++ [.set name spec]) name i ↔
      EntersAt history name i ∨ (¬ ∃ j, EntersAt history name j) ∧ i = history.length := by
  constructor
  · intro h
    have hlt := h.lt_length
    rw [List.length_append, List.length_singleton] at hlt
    rcases Nat.lt_succ_iff_lt_or_eq.mp hlt with hlt | rfl
    · exact Or.inl (h.of_concat hlt)
    · refine Or.inr ⟨?_, rfl⟩
      rintro ⟨j, hj⟩
      exact absurd ((hj.concat (e := .set name spec) (by simp)).unique h) hj.lt_length.ne
  · rintro (h | ⟨hnone, rfl⟩)
    · exact h.concat (by simp)
    · refine ⟨⟨spec, by simp⟩, fun j hj => ?_, fun j hj spec' hspec' => ?_⟩
      · rw [List.getElem?_eq_none (by simpa using hj)]
        simp
      · -- a setting that was not taken back would have brought the name in
        rw [List.getElem?_append_left hj] at hspec'
        by_contra hkept
        push Not at hkept
        refine hnone (exists_entersAt hspec' fun k hk hremove => ?_)
        have hklt := (List.getElem?_eq_some_iff.mp hremove).1
        exact hkept k hk hklt (by rwa [List.getElem?_append_left hklt])

end Histories

section Runs

variable {history : List Edit} {o o' : ObjectTy} {e : Edit}

theorem mem_names_insert {name n : String} {slot : Slot Ty} :
    n ∈ (o.insert name slot).names ↔ n = name ∨ n ∈ o.names := by
  rw [names, insert, Assoc.names_insert]
  split
  · rename_i hname
    constructor
    · exact Or.inr
    · rintro (rfl | hn)
      · exact hname
      · exact hn
  · rw [List.mem_append, List.mem_singleton, or_comm]
    rfl

theorem mem_names_erase {name n : String} :
    n ∈ (o.erase name).names ↔ n ≠ name ∧ n ∈ o.names := by
  rw [names, erase, Assoc.names_erase, List.mem_filter, bne_iff_ne, and_comm]
  rfl

/-- An object type has what a history of edits leaves: every name with the field that was set last,
and in the order in which the names came in. -/
structure Tracks (history : List Edit) (o : ObjectTy) : Prop where
  nodup : o.names.Nodup
  get?_iff : ∀ name slot, o.get? name = some slot ↔
    ∃ spec, LastEdit history name (.set name spec) ∧ spec.toSlot .notField = .ok slot
  mem_names_iff : ∀ name, name ∈ o.names ↔ ∃ i, EntersAt history name i
  ordered : o.names.Pairwise fun a b =>
    ∀ i j, EntersAt history a i → EntersAt history b j → i < j

theorem editAll_concat {edits : List Edit} :
    o.editAll (edits ++ [e]) = .ok o' ↔
      ∃ o₁, o.editAll edits = .ok o₁ ∧ o₁.edit e = .ok o' := by
  rw [editAll, List.foldlM_append]
  change (o.editAll edits >>= fun o₁ => [e].foldlM edit o₁) = _ ↔ _
  cases o.editAll edits with
  | error fault => simp [bind, Except.bind]
  | ok o₁ =>
      cases hedit : o₁.edit e <;> simp [bind, Except.bind, List.foldlM, hedit, pure, Except.pure]

theorem tracks_nil (index : Option (IndexRule Ty)) : Tracks [] ⟨[], index⟩ where
  nodup := List.nodup_nil
  get?_iff name slot := by
    constructor
    · intro h
      cases h
    · rintro ⟨spec, hlast, -⟩
      exact absurd hlast not_lastEdit_nil
  mem_names_iff name := by
    constructor
    · intro h
      cases h
    · rintro ⟨i, h⟩
      exact absurd h.lt_length (by simp)
  ordered := List.Pairwise.nil

theorem Tracks.entersAt_of_set (h : Tracks history o) {name n : String} {spec : SlotSpec}
    (hn : n ∈ o.names) {i : Nat} (hi : EntersAt (history ++ [.set name spec]) n i) :
    EntersAt history n i := by
  by_cases hne : n = name
  · subst hne
    rcases entersAt_concat_set.mp hi with hi | ⟨hnone, -⟩
    · exact hi
    · exact absurd ((h.mem_names_iff n).mp hn) hnone
  · exact (entersAt_concat_of_ne (Edit.name?_set_ne hne spec)).mp hi

theorem Tracks.set (h : Tracks history o) {name : String} {spec : SlotSpec} {slot : Slot Ty}
    (hslot : spec.toSlot .notField = .ok slot) :
    Tracks (history ++ [.set name spec]) (o.insert name slot) where
  nodup := Assoc.names_insert_nodup h.nodup name slot
  get?_iff n s := by
    simp only [lastEdit_concat]
    by_cases hn : n = name
    · subst hn
      rw [get?, insert, Assoc.lookup_insert_self]
      simp [Edit.name?, hslot]
    · rw [get?, insert, Assoc.lookup_insert_of_ne hn]
      simp only [if_neg (Edit.name?_set_ne hn spec)]
      exact h.get?_iff n s
  mem_names_iff n := by
    rw [mem_names_insert]
    by_cases hn : n = name
    · subst hn
      simp only [true_or, true_iff, entersAt_concat_set]
      by_cases hin : ∃ i, EntersAt history n i
      · exact hin.imp fun i hi => Or.inl hi
      · exact ⟨history.length, Or.inr ⟨hin, rfl⟩⟩
    · simp only [entersAt_concat_of_ne (Edit.name?_set_ne hn spec), ← h.mem_names_iff, hn, false_or]
  ordered := by
    have hold : o.names.Pairwise fun a b => ∀ i j, EntersAt (history ++ [.set name spec]) a i →
        EntersAt (history ++ [.set name spec]) b j → i < j :=
      h.ordered.imp_of_mem fun ha hb hab i j hi hj =>
        hab i j (h.entersAt_of_set ha hi) (h.entersAt_of_set hb hj)
    rw [names, insert, Assoc.names_insert]
    split
    · exact hold
    · rename_i hnew
      refine List.pairwise_append.mpr ⟨hold, List.pairwise_singleton _ name, ?_⟩
      intro a ha b hb i j hi hj
      rw [List.mem_singleton.mp hb] at hj
      rcases entersAt_concat_set.mp hj with hj | ⟨-, rfl⟩
      · exact absurd ((h.mem_names_iff name).mpr ⟨j, hj⟩) hnew
      · exact (h.entersAt_of_set ha hi).lt_length

theorem Tracks.remove (h : Tracks history o) (name : String) :
    Tracks (history ++ [.remove name]) (o.erase name) where
  nodup := by
    rw [names, erase, Assoc.names_erase]
    exact h.nodup.filter _
  get?_iff n s := by
    simp only [lastEdit_concat]
    by_cases hn : n = name
    · subst hn
      have hnone : (o.erase n).get? n = none := by
        rw [get?, erase, Assoc.lookup_eq_none_iff, Assoc.names_erase]
        simp
      simp [hnone, Edit.name?]
    · rw [get?, erase, Assoc.lookup_erase_of_ne hn]
      simp only [if_neg (Edit.name?_remove_ne hn)]
      exact h.get?_iff n s
  mem_names_iff n := by
    rw [mem_names_erase]
    by_cases hn : n = name
    · subst hn
      simp [not_entersAt_concat_remove]
    · simp only [entersAt_concat_of_ne (Edit.name?_remove_ne hn), ← h.mem_names_iff, ne_eq, hn,
        not_false_eq_true, true_and]
  ordered := by
    rw [names, erase, Assoc.names_erase]
    have hkept : ∀ {n : String}, n ∈ o.names.filter (· != name) → ∀ {i : Nat},
        EntersAt (history ++ [.remove name]) n i → EntersAt history n i := by
      intro n hn i hi
      have hne : n ≠ name := by simpa using (List.mem_filter.mp hn).2
      exact (entersAt_concat_of_ne (Edit.name?_remove_ne hne)).mp hi
    exact (h.ordered.filter _).imp_of_mem fun ha hb hab i j hi hj =>
      hab i j (hkept ha hi) (hkept hb hj)

theorem Tracks.setIndex (h : Tracks history o) (index : Option (IndexRule Ty)) :
    Tracks (history ++ [.setIndex index]) (o.setIndex index) where
  nodup := h.nodup
  get?_iff n s := by
    simp only [lastEdit_concat]
    exact h.get?_iff n s
  mem_names_iff n := by
    simp only [entersAt_concat_of_ne (e := .setIndex index) (by simp [Edit.name?])]
    exact h.mem_names_iff n
  ordered := by
    simp only [entersAt_concat_of_ne (e := .setIndex index) (by simp [Edit.name?])]
    exact h.ordered

theorem Tracks.edit (h : Tracks history o) (hedit : o.edit e = .ok o') :
    Tracks (history ++ [e]) o' := by
  cases e with
  | set name spec =>
      obtain ⟨slot, hslot, rfl⟩ := insertSpec_eq_ok hedit
      exact h.set hslot
  | remove name =>
      cases hedit
      exact h.remove name
  | setIndex index =>
      cases hedit
      exact h.setIndex index

theorem Tracks.editAll (h : Tracks history o) {edits : List Edit}
    (hedits : o.editAll edits = .ok o') : Tracks (history ++ edits) o' := by
  induction edits using List.reverseRecOn generalizing o' with
  | nil =>
      cases hedits
      rwa [List.append_nil]
  | append_singleton edits e ih =>
      obtain ⟨o₁, hrun, hedit⟩ := editAll_concat.mp hedits
      rw [← List.append_assoc]
      exact (ih hrun).edit hedit

theorem exists_editAll (o : ObjectTy) {edits : List Edit} (h : ∀ e ∈ edits, e.Valid) :
    ∃ o', o.editAll edits = .ok o' := by
  induction edits using List.reverseRecOn with
  | nil => exact ⟨o, rfl⟩
  | append_singleton edits e ih =>
      obtain ⟨o₁, hrun⟩ := ih fun e' he' => h e' (List.mem_append_left [e] he')
      have hvalid := h e (by simp)
      have hedit : ∃ o', o₁.edit e = .ok o' := by
        cases e with
        | set name spec =>
            obtain ⟨slot, hslot⟩ := hvalid
            exact ⟨o₁.insert name slot, by rw [ObjectTy.edit, insertSpec, hslot, Except.map]⟩
        | remove name => exact ⟨_, rfl⟩
        | setIndex index => exact ⟨_, rfl⟩
      obtain ⟨o', hedit⟩ := hedit
      exact ⟨o', editAll_concat.mpr ⟨o₁, hrun, hedit⟩⟩

theorem index_editAll {edits : List Edit} (h : o.editAll edits = .ok o') :
    o'.index = (edits.filterMap Edit.index?).getLast?.getD o.index := by
  induction edits using List.reverseRecOn generalizing o' with
  | nil =>
      cases h
      rfl
  | append_singleton edits e ih =>
      obtain ⟨o₁, hrun, hedit⟩ := editAll_concat.mp h
      cases e with
      | set name spec =>
          obtain ⟨slot, -, rfl⟩ := insertSpec_eq_ok hedit
          simpa [Edit.index?, insert] using ih hrun
      | remove name =>
          cases hedit
          simpa [Edit.index?, erase] using ih hrun
      | setIndex index =>
          cases hedit
          simp [Edit.index?, setIndex]

/-- A name is there in the end when it was set last, or was there before and not removed last. -/
theorem mem_names_editAll {edits : List Edit} (h : o.editAll edits = .ok o') (name : String) :
    name ∈ o'.names ↔ (∃ spec, LastEdit edits name (.set name spec)) ∨
      name ∈ o.names ∧ ¬ LastEdit edits name (.remove name) := by
  induction edits using List.reverseRecOn generalizing o' with
  | nil =>
      cases h
      simp [not_lastEdit_nil]
  | append_singleton edits e ih =>
      obtain ⟨o₁, hrun, hedit⟩ := editAll_concat.mp h
      simp only [lastEdit_concat]
      cases e with
      | set n spec =>
          obtain ⟨slot, -, rfl⟩ := insertSpec_eq_ok hedit
          rw [mem_names_insert]
          by_cases hn : name = n
          · subst hn
            simp [Edit.name?]
          · simp only [if_neg (Edit.name?_set_ne hn spec), ← ih hrun, hn, false_or]
      | remove n =>
          cases hedit
          rw [mem_names_erase]
          by_cases hn : name = n
          · subst hn
            simp [Edit.name?]
          · simp only [if_neg (Edit.name?_remove_ne hn), ← ih hrun, ne_eq, hn, not_false_eq_true,
              true_and]
      | setIndex index =>
          cases hedit
          have hbefore := ih hrun
          exact hbefore

end Runs

section Building

variable {o : ObjectTy} {index : Option (IndexRule Ty)}

theorem editAll_cons_of_ok {e : Edit} {o₁ : ObjectTy} (h : o.edit e = .ok o₁) (edits : List Edit) :
    o.editAll (e :: edits) = o₁.editAll edits := by
  rw [editAll, List.foldlM_cons, h]
  rfl

theorem editAll_of_buildFields {seen : List String} {specs : List (String × SlotSpec)}
    {table fields : List (String × Slot Ty)} (hseen : ∀ n, n ∈ seen ↔ n ∈ Assoc.names table)
    (h : Ty.buildFields seen specs = .ok fields) :
    editAll ⟨table, index⟩ (specs.map fun s => .set s.1 s.2) = .ok ⟨table ++ fields, index⟩ := by
  induction specs generalizing seen table fields with
  | nil =>
      cases h
      rw [List.append_nil]
      rfl
  | cons first rest ih =>
      obtain ⟨name, spec⟩ := first
      unfold Ty.buildFields at h
      split at h
      · cases h
      · rename_i hnew
        have hnew' : name ∉ Assoc.names table := by
          rw [← hseen]
          simpa using hnew
        split at h
        · cases h
        · rename_i slot hslot
          cases hrest : Ty.buildFields (name :: seen) rest with
          | error fault =>
              rw [hrest] at h
              cases h
          | ok others =>
              rw [hrest] at h
              cases h
              have hedit : edit ⟨table, index⟩ (.set name spec) =
                  .ok ⟨table ++ [(name, slot)], index⟩ := by
                rw [edit, insertSpec, hslot, Except.map, insert, Assoc.insert_of_not_mem hnew']
              rw [List.map_cons, editAll_cons_of_ok hedit, ih ?_ hrest, List.append_assoc,
                List.singleton_append]
              intro n
              simp [Assoc.names, hseen, or_comm]

theorem editAll_of_build {specs : List (String × SlotSpec)} (h : build specs index = .ok o) :
    editAll ⟨[], index⟩ (specs.map fun s => .set s.1 s.2) = .ok o := by
  unfold build at h
  cases hfields : Ty.buildFields [] specs with
  | error fault =>
      rw [hfields] at h
      cases h
  | ok fields =>
      rw [hfields] at h
      cases h
      exact editAll_of_buildFields (fun n => Iff.rfl) hfields

theorem index_of_build {specs : List (String × SlotSpec)} (h : build specs index = .ok o) :
    o.index = index := by
  have hnone : (specs.map fun s => Edit.set s.1 s.2).filterMap Edit.index? = [] := by
    simp [List.filterMap_map, Function.comp_def, Edit.index?]
  rw [index_editAll (editAll_of_build h), hnone]
  rfl

theorem buildFields_slots {seen : List String} {fields : List (String × Slot Ty)}
    (hnodup : (Assoc.names fields).Nodup) (hseen : ∀ n ∈ Assoc.names fields, n ∉ seen) :
    Ty.buildFields seen (fields.map fun f => (f.1, .slot f.2)) = .ok fields := by
  induction fields generalizing seen with
  | nil => rfl
  | cons f rest ih =>
      obtain ⟨hnew, hnodup⟩ := List.nodup_cons.mp hnodup
      have hunseen : seen.contains f.1 = false := by
        simpa using hseen f.1 List.mem_cons_self
      have hrest : ∀ n ∈ Assoc.names rest, n ∉ f.1 :: seen := by
        intro n hn hmem
        rcases List.mem_cons.mp hmem with rfl | hmem
        · exact hnew hn
        · exact hseen n (List.mem_cons_of_mem f.1 hn) hmem
      simp only [List.map_cons, Ty.buildFields, hunseen, Bool.false_eq_true, if_false,
        SlotSpec.toSlot, ih hnodup hrest, Except.map]

/-- All views of an object type agree, and its builder accepts its fields as they are. -/
structure Consistent (o : ObjectTy) : Prop where
  rebuilt : build (o.fields.map fun f => (f.1, .slot f.2)) o.index = .ok o
  nodup : o.names.Nodup
  contains_iff : ∀ name, o.contains name = true ↔ name ∈ o.names
  mem_keys_iff : ∀ name, name ∈ o.keys ↔ name ∈ o.names
  get?_eq_none_iff : ∀ name, o.get? name = none ↔ name ∉ o.names
  get?_eq_some_iff : ∀ name slot, o.get? name = some slot ↔ (name, slot) ∈ o.fields
  get_eq_ok_iff : ∀ name slot, o.get name = .ok slot ↔ o.get? name = some slot
  get_of_not_mem : ∀ name, name ∉ o.names → o.get name = .error (.fieldNotFound name)
  requiredNames_eq :
    o.requiredNames = o.names.filter fun name => (o.get? name).any fun slot => !slot.optional

theorem consistent_of_nodup (h : o.names.Nodup) : o.Consistent where
  rebuilt := by
    rw [build, buildFields_slots h (by simp), Except.map]
  nodup := h
  contains_iff := Assoc.contains_iff_mem_names o.fields
  mem_keys_iff _ := Names.mem_ofList
  get?_eq_none_iff := Assoc.lookup_eq_none_iff o.fields
  get?_eq_some_iff _ _ := ⟨Assoc.mem_of_lookup, Assoc.lookup_of_mem h⟩
  get_eq_ok_iff name slot := by
    unfold get
    cases o.get? name <;> simp
  get_of_not_mem name hname := by
    have hnone : o.get? name = none := (Assoc.lookup_eq_none_iff o.fields name).mpr hname
    rw [get, hnone]
  requiredNames_eq := by
    rw [requiredNames, names, Assoc.names, Assoc.names, List.filter_map]
    congr 1
    apply List.filter_congr
    intro f hf
    have hget : o.get? f.1 = some f.2 := Assoc.lookup_of_mem h hf
    simp [hget]

end Building

/-- After any run of edits on an object that was built, its views agree and it has what the history
of the edits says, the fields that it was built from included. No edit fails, and only an edit of
the index rule changes that. -/
theorem editAll_consistent {specs : List (String × SlotSpec)} {index : Option (IndexRule Ty)}
    {o : ObjectTy} (hbuild : build specs index = .ok o) {edits : List Edit}
    (hvalid : ∀ e ∈ edits, e.Valid) :
    ∃ o', o.editAll edits = .ok o' ∧ o'.Consistent ∧
      Tracks (specs.map (fun s => .set s.1 s.2) ++ edits) o' ∧
      o'.index = (edits.filterMap Edit.index?).getLast?.getD index := by
  obtain ⟨o', hrun⟩ := exists_editAll o hvalid
  have htracks := ((tracks_nil index).editAll (editAll_of_build hbuild)).editAll hrun
  refine ⟨o', hrun, consistent_of_nodup htracks.nodup, htracks, ?_⟩
  rw [index_editAll hrun, index_of_build hbuild]

/-- A field that goes and comes back, one that comes and one that is replaced. -/
def revisions : List Edit :=
  [.remove "id", .set "owner" (.bare .string), .set "size" (.slot ⟨.boolean, true, false⟩),
    .set "id" (.bare .number), .setIndex (some ⟨.string, .boolean, false⟩),
    .set "owner" (.slot ⟨.string, false, true⟩)]

theorem editAll_consistent_revisions :
    ∃ o o', build [("id", .bare .string), ("size", .slot ⟨.number, false, true⟩)] none = .ok o ∧
      o.editAll revisions = .ok o' ∧ o'.Consistent ∧ o'.names = ["size", "owner", "id"] ∧
      o'.requiredNames = ["size", "id"] ∧ o'.get? "size" = some ⟨.boolean, true, false⟩ ∧
      o'.index = some ⟨.string, .boolean, false⟩ := by
  have hbuild : build [("id", .bare .string), ("size", .slot ⟨.number, false, true⟩)] none =
      .ok ⟨[("id", ⟨.string, false, false⟩), ("size", ⟨.number, false, true⟩)], none⟩ := rfl
  have hvalid : ∀ e ∈ revisions, e.Valid := by
    simp [revisions, Edit.Valid, SlotSpec.toSlot, Ty.string, Ty.number]
  obtain ⟨o', hrun, hconsistent, -, hindex⟩ := editAll_consistent hbuild hvalid
  refine ⟨_, o', hbuild, hrun, hconsistent, ?_, ?_, ?_, hindex⟩
  · cases hrun
    rfl
  · cases hrun
    rfl
  · cases hrun
    rfl

end StructuralTypes.ObjectTy
