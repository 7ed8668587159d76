import StructuralTypes.Proofs.Reordering
import StructuralTypes.Proofs.Unfolding

namespace StructuralTypes

namespace Ty

variable {s t : Ty}

section Tables

variable {fields fields' : List (String × Slot Ty)} {index index' : Option (IndexRule Ty)}

/-- The same names, with like slots under each of them. -/
structure SameTable (fields fields' : List (String × Slot Ty)) : Prop where
  names : ∀ name, name ∈ Assoc.names fields ↔ name ∈ Assoc.names fields'
  slots : ∀ name s t, fields.lookup name = some s → fields'.lookup name = some t → s.Alike t

theorem sameTable_iff (hnodup : (Assoc.names fields).Nodup)
    (hnodup' : (Assoc.names fields').Nodup) :
    SameTable fields fields' ↔ fields.length = fields'.length ∧ FieldsAlike fields fields' := by
  constructor
  · intro h
    have hperm : (Assoc.names fields).Perm (Assoc.names fields') :=
      (List.perm_ext_iff_of_nodup hnodup hnodup').mpr h.names
    refine ⟨by simpa [Assoc.names] using hperm.length_eq, fun name s hs => ?_⟩
    have hname : name ∈ Assoc.names fields' :=
      (h.names name).mp (List.mem_map_of_mem (f := Prod.fst) hs)
    obtain ⟨⟨n, t⟩, ht, rfl⟩ := List.mem_map.mp hname
    have hlookup := Assoc.lookup_of_mem hnodup' ht
    exact ⟨t, hlookup, h.slots n s t (Assoc.lookup_of_mem hnodup hs) hlookup⟩
  · rintro ⟨hlength, halike⟩
    refine ⟨fun name => ⟨fun hname => ?_, fun hname => ?_⟩, fun name s t hs ht => ?_⟩
    · obtain ⟨⟨n, s⟩, hs, rfl⟩ := List.mem_map.mp hname
      obtain ⟨t, ht, -⟩ := halike n s hs
      exact List.mem_map.mpr ⟨(n, t), Assoc.mem_of_lookup ht, rfl⟩
    · obtain ⟨⟨n, t⟩, ht, rfl⟩ := List.mem_map.mp hname
      obtain ⟨s, hs, -⟩ := halike.exists_of_mem hnodup hnodup' hlength ht
      exact List.mem_map.mpr ⟨(n, s), hs, rfl⟩
    · obtain ⟨t', ht', hst⟩ := halike name s (Assoc.mem_of_lookup hs)
      cases ht.symm.trans ht'
      exact hst

theorem object_beq_iff (hs : (object fields index).WellFormed)
    (ht : (object fields' index').WellFormed) :
    object fields index == object fields' index' ↔
      SameTable fields fields' ∧ Option.Rel IndexRule.Alike index index' := by
  rw [sameTable_iff hs.names_nodup ht.names_nodup]
  constructor
  · intro h
    cases alike_of_beq h with
    | object length fieldsAlike indexAlike => exact ⟨⟨length, fieldsAlike⟩, indexAlike⟩
  · rintro ⟨⟨length, fieldsAlike⟩, indexAlike⟩
    exact (Alike.object length fieldsAlike indexAlike).beq

end Tables

theorem union_beq_iff {members members' : List Ty} (hs : (union members).WellFormed)
    (ht : (union members').WellFormed) :
    union members == union members' ↔
      (∀ m ∈ members, ∃ m' ∈ members', m == m') ∧ ∀ m' ∈ members', ∃ m ∈ members, m' == m := by
  constructor
  · intro h
    cases alike_of_beq h with
    | union forth back =>
        refine ⟨forth, fun m' hm' => ?_⟩
        obtain ⟨m, hm, hmm⟩ := back m' hm'
        exact ⟨m, hm, beq_symm (hs.part hm) (ht.part hm') hmm⟩
  · rintro ⟨forth, back⟩
    refine (Alike.union forth fun m' hm' => ?_).beq
    obtain ⟨m, hm, hmm⟩ := back m' hm'
    exact ⟨m, hm, beq_symm (ht.part hm') (hs.part hm) hmm⟩

theorem tuple_beq_iff {elements elements' : List (Slot Ty)} :
    tuple elements == tuple elements' ↔ List.Forall₂ Slot.Alike elements elements' :=
  sameSlots_iff

theorem number_beq_iff {a b : Number} :
    literal (.number a) == literal (.number b) ↔ a.value = b.value :=
  Number.same_iff

section Reordering

theorem isKeyDomain_of_beq (h : s == t) (hs : s.isKeyDomain = true) : t.isKeyDomain = true := by
  induction s using parts_induction generalizing t with
  | step s ih =>
      cases alike_of_beq h with
      | literal hsame =>
          rename_i l m
          have hkind := Literal.kind_eq_of_same hsame
          cases l <;> cases m <;> simp_all [isKeyDomain, Literal.kind]
      | union forth back =>
          rw [isKeyDomain, areKeyDomains_iff] at hs ⊢
          intro m' hm'
          obtain ⟨m, hm, hmm⟩ := back m' hm'
          exact ih m hm hmm (hs m hm)
      | primitive name => exact hs
      | named name => exact hs
      | _ => cases hs

theorem differ_of_pairs {pairs : List (Ty × Ty)} {members members' : List Ty}
    (hmembers : (pairs.map Prod.fst).Perm members)
    (hmembers' : (pairs.map Prod.snd).Perm members') (hequal : ∀ p ∈ pairs, Equal p.1 p.2)
    (h : members.Pairwise fun m m' => (m == m') = false) :
    members'.Pairwise fun m m' => (m == m') = false := by
  have hsymm : ∀ m m' : Ty, ¬Equal m m' → ¬Equal m' m := fun m m' hne heq => hne heq.symm
  have hdiffer : members.Pairwise fun m m' => ¬Equal m m' :=
    h.imp fun hne heq => by simp [heq.beq] at hne
  have hfst : pairs.Pairwise fun p q => ¬Equal p.1 q.1 :=
    List.pairwise_map.mp (hmembers.symm.pairwise hdiffer (hsymm _ _))
  have hsnd : pairs.Pairwise fun p q => ¬Equal p.2 q.2 := by
    refine hfst.imp_of_mem fun hp hq hne heq => hne ?_
    exact ((hequal _ hp).trans heq).trans (hequal _ hq).symm
  have hdiffer' : members'.Pairwise fun m m' => ¬Equal m m' :=
    hmembers'.pairwise (List.pairwise_map.mpr hsnd) (hsymm _ _)
  refine hdiffer'.imp_of_mem fun {m m'} hm hm' hne => ?_
  obtain ⟨p, hp, rfl⟩ := List.mem_map.mp (hmembers'.mem_iff.mpr hm)
  obtain ⟨q, hq, rfl⟩ := List.mem_map.mp (hmembers'.mem_iff.mpr hm')
  rw [← Bool.not_eq_true]
  exact fun hbeq => hne ⟨(hequal p hp).wellFormed', (hequal q hq).wellFormed', hbeq⟩

theorem Reordered.equal (hs : s.WellFormed) (h : Reordered s t) : Equal s t := by
  suffices ht : t.WellFormed from ⟨hs, ht, h.beq hs ht⟩
  induction h with
  | refl t => exact hs
  | @object pairs fields fields' index index' hfields hfields' hframe _ hindex hkey _ ih ihkey
      ihvalue =>
      have hnames : (Assoc.names fields').Perm (Assoc.names fields) := by
        have hsnd := hfields'.map Prod.fst
        have hfst := hfields.map Prod.fst
        have hmap := Declarations.names_map_snd hframe
        unfold Assoc.names at hmap ⊢
        exact hsnd.symm.trans (hmap ▸ hfst)
      refine wellFormed_object (hnames.nodup_iff.mpr hs.names_nodup) (fun f hf => ?_) ?_
      · obtain ⟨p, hp, rfl⟩ := List.mem_map.mp (hfields'.mem_iff.mpr hf)
        exact ih p hp
          (hs.part (mem_parts_of_mem_fields (hfields.mem_iff.mp (List.mem_map_of_mem hp))))
      · intro q hq
        obtain ⟨r, rfl, -⟩ := exists_of_rel_some_right hindex hq
        have hkeyWf := ihkey r rfl q hq (hs.part key_mem_parts)
        have hbeq := (hkey r rfl q hq).beq (hs.part key_mem_parts) hkeyWf
        exact ⟨isKeyDomain_of_beq hbeq hs.wellMade.2, hkeyWf,
          ihvalue r rfl q hq (hs.part value_mem_parts)⟩
  | array readonly _ ih =>
      exact Declarations.wellFormed_array (ih (hs.part (by simp [parts])))
  | tuple pairs hframe _ ih => exact Declarations.wellFormed_tuple_map_snd hframe hs ih
  | @union pairs members members' hmembers hmembers' hpairs ih =>
      have hfst : ∀ p ∈ pairs, p.1 ∈ members := fun p hp =>
        hmembers.mem_iff.mp (List.mem_map_of_mem hp)
      have hequal : ∀ p ∈ pairs, Equal p.1 p.2 := fun p hp =>
        have hwf := hs.part (hfst p hp)
        ⟨hwf, ih p hp hwf, (hpairs p hp).beq hwf (ih p hp hwf)⟩
      obtain ⟨hne, hnative, hdiffer⟩ := hs.wellMade
      refine wellFormed_iff.mpr
        ⟨⟨?_, fun m hm => ?_, differ_of_pairs hmembers hmembers' hequal hdiffer⟩, fun m hm => ?_⟩
      · rintro rfl
        have hpairs : pairs = [] := by simpa using hmembers'
        subst hpairs
        exact hne (by simpa using hmembers)
      · obtain ⟨p, hp, rfl⟩ := List.mem_map.mp (hmembers'.mem_iff.mpr hm)
        exact Assignability.foreign?_eq_none_of_beq (hequal p hp).beq (hnative p.1 (hfst p hp))
      · obtain ⟨p, hp, rfl⟩ := List.mem_map.mp (hmembers'.mem_iff.mpr hm)
        exact (hequal p hp).wellFormed'
  | mapped pairs hframe hpairs ih =>
      refine Declarations.wellFormed_mapped_map_snd hframe hs ih fun p hp => ?_
      have hp' : p.1 ∈ pairs.map Prod.fst := List.mem_map_of_mem hp
      have hwf : p.1.2.type.WellFormed := hs.part (mem_parts_of_mem_entries hp')
      exact Assignability.foreign?_eq_none_of_beq ((hpairs p hp).beq hwf (ih p hp hwf))
        (hs.wellMade.2 p.1 hp')

end Reordering

section Distinct

/-- The members at the places before which no equal member stands. -/
def firsts (members : List Ty) : List Ty :=
  ((List.finRange members.length).filter fun i =>
    ∀ j < i, (members.get j == members.get i) = false).map members.get

theorem distinct_eq_firsts (members : List Ty) : distinct members = firsts members := by
  induction members with
  | nil => rfl
  | cons first rest ih =>
      have hrange : List.finRange (first :: rest).length =
          0 :: (List.finRange rest.length).map Fin.succ := List.finRange_succ
      have hplace : ∀ i : Fin rest.length,
          (∀ j < i.succ, ((first :: rest).get j == (first :: rest).get i.succ) = false) ↔
            (first == rest.get i) = false ∧ ∀ j < i, (rest.get j == rest.get i) = false := by
        intro i
        rw [Fin.forall_fin_succ]
        simp [Fin.succ_lt_succ_iff]
      unfold distinct
      rw [ih]
      unfold firsts
      rw [hrange, List.filter_cons_of_pos (by simp), List.map_cons, List.filter_map,
        List.filter_map, List.filter_filter, List.map_map]
      refine congrArg (first :: ·) (congrArg (List.map rest.get) (List.filter_congr fun i _ => ?_))
      rw [Bool.eq_iff_iff]
      simp only [Function.comp_apply, Bool.and_eq_true, Bool.not_eq_true', decide_eq_true_eq]
      exact (hplace i).symm

end Distinct

/-- Equality of types is an equivalence, and each kind of type has its own meaning of it. Order
counts in tuples only, and of equal members a union keeps the first. -/
theorem structural_equality :
    (Equivalence fun s t : {t : Ty // t.WellFormed} => (s.val == t.val) = true) ∧
    (∀ fields index fields' index', (object fields index).WellFormed →
      (object fields' index').WellFormed →
        (object fields index == object fields' index' ↔
          SameTable fields fields' ∧ Option.Rel IndexRule.Alike index index')) ∧
    (∀ members members', (union members).WellFormed → (union members').WellFormed →
      (union members == union members' ↔
        (∀ m ∈ members, ∃ m' ∈ members', m == m') ∧ ∀ m' ∈ members', ∃ m ∈ members, m' == m)) ∧
    (∀ elements elements', tuple elements == tuple elements' ↔
      List.Forall₂ Slot.Alike elements elements') ∧
    (∀ a b : Number, literal (.number a) == literal (.number b) ↔ a.value = b.value) ∧
    (∀ (a : Number) (b : Bool), (literal (.number a) == literal (.bool b)) = false ∧
      (literal (.bool b) == literal (.number a)) = false) ∧
    (∀ s t : Ty, s.WellFormed → s.Reordered t → t.WellFormed ∧ s == t) ∧
    (∀ members : List Ty, members ≠ [] → (∀ m ∈ members, m.WellFormed ∧ m.foreign? = none) →
      buildUnion members = .ok (.union (firsts members)) ∧
        ((firsts members).Pairwise fun m m' => (m == m') = false) ∧
        ∀ m ∈ members, ∃ m' ∈ firsts members, m' == m) := by
  refine ⟨⟨fun t => beq_refl t.property, fun {s t} => beq_symm s.property t.property, beq_trans⟩,
    fun _ _ _ _ => object_beq_iff, fun _ _ => union_beq_iff, fun _ _ => tuple_beq_iff,
    fun _ _ => number_beq_iff, fun _ _ => ⟨rfl, rfl⟩, fun s t hs h => ?_, fun members hne h => ?_⟩
  · exact ⟨(h.equal hs).wellFormed', (h.equal hs).beq⟩
  · rw [← distinct_eq_firsts]
    refine ⟨buildUnion_of_native hne fun m hm => (h m hm).2, distinct_pairwise members, ?_⟩
    exact fun m hm => exists_mem_distinct (fun m' hm' => (h m' hm').1) hm

def metres : Ty :=
  .literal (.text "m")

def feet : Ty :=
  .literal (.text "ft")

def measured : Ty :=
  .object [("value", ⟨.primitive "number", false, true⟩),
    ("unit", ⟨.union [metres, feet], true, false⟩)] none

def measuredSwapped : Ty :=
  .object [("unit", ⟨.union [feet, metres], true, false⟩),
    ("value", ⟨.primitive "number", false, true⟩)] none

/-- The number one written in two ways, among literals that look like it. -/
def ones : List Ty :=
  [.literal (.number (.int 1)), .literal (.bool true),
    .literal (.number (.float (Binary64.ofRatio false 1 1))), .literal (.text "1"),
    .literal (.bool true)]

theorem structural_equality_measured :
    measuredSwapped.WellFormed ∧ measured == measuredSwapped ∧
      buildUnion ones = .ok (.union
        [.literal (.number (.int 1)), .literal (.bool true), .literal (.text "1")]) := by
  obtain ⟨-, -, -, -, -, -, hreordered, hunion⟩ := structural_equality
  have hunits : Reordered (.union [metres, feet]) (.union [feet, metres]) := by
    refine .union [(metres, metres), (feet, feet)] (.refl _) (.swap _ _ _) ?_
    simp only [List.forall_mem_cons]
    exact ⟨.refl _, .refl _, by simp⟩
  have hmeasured : measured.Reordered measuredSwapped := by
    let value : String × Slot Ty := ("value", ⟨.primitive "number", false, true⟩)
    let unit (members : List Ty) : String × Slot Ty := ("unit", ⟨.union members, true, false⟩)
    refine .object [(value, value), (unit [metres, feet], unit [feet, metres])] (.refl _)
      (.swap _ _ _) ?_ ?_ .none (by simp) (by simp)
    · simp [SameFrame, Slot.SameModifiers, unit]
    · simp only [List.forall_mem_cons]
      exact ⟨.refl _, hunits, by simp⟩
  obtain ⟨hwellFormed, hbeq⟩ := hreordered measured measuredSwapped (by decide) hmeasured
  have hkept : firsts ones =
      [.literal (.number (.int 1)), .literal (.bool true), .literal (.text "1")] := by rfl
  refine ⟨hwellFormed, hbeq, ?_⟩
  rw [← hkept]
  exact (hunion ones (by decide) (by decide)).1

end Ty

end StructuralTypes
