import Mathlib.Logic.Relation
import StructuralTypes.Proofs.Build
import StructuralTypes.Proofs.Structure

/-!
Unfolding: names are exchanged for the types they resolve to, and mapped types for their objects, at
chosen places and at any depth. A type and its unfoldings are interchangeable, and interchangeable
types stand for structures that correspond, with interchangeable parts. A recursive type has
infinitely many unfoldings, and all of them are interchangeable.
-/

namespace StructuralTypes

namespace Declarations

open Relation

/-- A type with names and mapped types unfolded at chosen places. Members of a union that have
become equal fall together when the union is built anew; keys of index rules have nothing to
unfold. -/
inductive Unfolds (d : Declarations) : Ty → Ty → Prop
  | refl (t : Ty) : Unfolds d t t
  | name {name : String} {t t' : Ty} (h : d.resolve (.named name) = .ok t) (ht : Unfolds d t t') :
      Unfolds d (.named name) t'
  | table {entries : List (String × Slot Ty)} {t' : Ty}
      (ht : Unfolds d (Ty.mapped entries).expanded t') : Unfolds d (.mapped entries) t'
  | object (pairs : List ((String × Slot Ty) × (String × Slot Ty)))
      {index index' : Option (IndexRule Ty)} (hframe : ∀ p ∈ pairs, Ty.SameFrame p.1 p.2)
      (htype : ∀ p ∈ pairs, Unfolds d p.1.2.type p.2.2.type)
      (hindex : Option.Rel (fun r q => r.key = q.key ∧ r.readonly = q.readonly) index index')
      (hvalue : ∀ r ∈ index, ∀ q ∈ index', Unfolds d r.value q.value) :
      Unfolds d (.object (pairs.map Prod.fst) index) (.object (pairs.map Prod.snd) index')
  | array {element element' : Ty} (readonly : Bool) (h : Unfolds d element element') :
      Unfolds d (.array element readonly) (.array element' readonly)
  | tuple (pairs : List (Slot Ty × Slot Ty)) (hframe : ∀ p ∈ pairs, p.1.SameModifiers p.2)
      (htype : ∀ p ∈ pairs, Unfolds d p.1.type p.2.type) :
      Unfolds d (.tuple (pairs.map Prod.fst)) (.tuple (pairs.map Prod.snd))
  | union (pairs : List (Ty × Ty)) {t' : Ty} (hmembers : ∀ p ∈ pairs, Unfolds d p.1 p.2)
      (h : Ty.buildUnion (pairs.map Prod.snd) = .ok t') :
      Unfolds d (.union (pairs.map Prod.fst)) t'
  | mapped (pairs : List ((String × Slot Ty) × (String × Slot Ty)))
      (hframe : ∀ p ∈ pairs, Ty.SameFrame p.1 p.2)
      (htype : ∀ p ∈ pairs, Unfolds d p.1.2.type p.2.2.type)
      (hnative : ∀ p ∈ pairs, p.2.2.type.foreign? = none) :
      Unfolds d (.mapped (pairs.map Prod.fst)) (.mapped (pairs.map Prod.snd))

variable {d : Declarations} {s t u x y : Ty}

section WellFormed

theorem names_map_snd {pairs : List ((String × Slot Ty) × (String × Slot Ty))}
    (hframe : ∀ p ∈ pairs, Ty.SameFrame p.1 p.2) :
    Assoc.names (pairs.map Prod.snd) = Assoc.names (pairs.map Prod.fst) := by
  simp only [Assoc.names, List.map_map]
  exact List.map_congr_left fun p hp => (hframe p hp).1.symm

theorem misplacedPosition?_map_snd {pairs : List (Slot Ty × Slot Ty)}
    (hframe : ∀ p ∈ pairs, p.1.SameModifiers p.2) (seen : Bool) (k : Nat) :
    Ty.misplacedPosition? seen k (pairs.map Prod.snd) =
      Ty.misplacedPosition? seen k (pairs.map Prod.fst) := by
  induction pairs generalizing seen k with
  | nil => rfl
  | cons p rest ih =>
      rw [List.forall_mem_cons] at hframe
      simp only [List.map_cons, Ty.misplacedPosition?, hframe.1.2, ih hframe.2]

theorem wellFormed_array {element : Ty} {readonly : Bool} (h : element.WellFormed) :
    (Ty.array element readonly).WellFormed := by
  refine Ty.wellFormed_iff.mpr ⟨trivial, fun p hp => ?_⟩
  rw [List.mem_singleton.mp hp]
  exact h

theorem wellFormed_tuple_map_snd {pairs : List (Slot Ty × Slot Ty)}
    (hframe : ∀ p ∈ pairs, p.1.SameModifiers p.2)
    (ht : (Ty.tuple (pairs.map Prod.fst)).WellFormed)
    (h : ∀ p ∈ pairs, p.1.type.WellFormed → p.2.type.WellFormed) :
    (Ty.tuple (pairs.map Prod.snd)).WellFormed := by
  refine Ty.wellFormed_iff.mpr ⟨(misplacedPosition?_map_snd hframe _ _).trans ht.wellMade, ?_⟩
  intro p hp
  obtain ⟨slot, hslot, rfl⟩ := List.mem_map.mp hp
  obtain ⟨q, hq, rfl⟩ := List.mem_map.mp hslot
  exact h q hq (ht.part (List.mem_map_of_mem (List.mem_map_of_mem hq)))

theorem wellFormed_mapped_map_snd {pairs : List ((String × Slot Ty) × (String × Slot Ty))}
    (hframe : ∀ p ∈ pairs, Ty.SameFrame p.1 p.2)
    (ht : (Ty.mapped (pairs.map Prod.fst)).WellFormed)
    (h : ∀ p ∈ pairs, p.1.2.type.WellFormed → p.2.2.type.WellFormed)
    (hnative : ∀ p ∈ pairs, p.2.2.type.foreign? = none) :
    (Ty.mapped (pairs.map Prod.snd)).WellFormed := by
  refine Ty.wellFormed_iff.mpr ⟨⟨names_map_snd hframe ▸ ht.wellMade.1, fun f hf => ?_⟩, ?_⟩
  · obtain ⟨p, hp, rfl⟩ := List.mem_map.mp hf
    exact hnative p hp
  · intro p hp
    obtain ⟨f, hf, rfl⟩ := List.mem_map.mp hp
    obtain ⟨q, hq, rfl⟩ := List.mem_map.mp hf
    exact h q hq (ht.part (Ty.mem_parts_of_mem_entries (List.mem_map_of_mem hq)))

theorem Unfolds.wellFormed (hd : d.WellFormed) (ht : t.WellFormed) (h : d.Unfolds t u) :
    u.WellFormed := by
  induction h with
  | refl => exact ht
  | name h _ ih => exact ih (hd.resolve ht h)
  | table _ ih => exact ih ht.expanded
  | object pairs hframe _ hindex _ ih ihvalue =>
      refine Ty.wellFormed_object (names_map_snd hframe ▸ ht.names_nodup) (fun f hf => ?_) ?_
      · obtain ⟨p, hp, rfl⟩ := List.mem_map.mp hf
        exact ih p hp (ht.part (Ty.mem_parts_of_mem_fields (List.mem_map_of_mem hp)))
      · intro q hq
        obtain ⟨r, hr, hkey, -⟩ := exists_of_rel_some_right hindex hq
        subst hr
        rw [← hkey]
        exact ⟨ht.wellMade.2, ht.part Ty.key_mem_parts,
          ihvalue r rfl q hq (ht.part Ty.value_mem_parts)⟩
  | array _ _ ih => exact wellFormed_array (ih (ht.part (by simp [Ty.parts])))
  | tuple pairs hframe _ ih => exact wellFormed_tuple_map_snd hframe ht ih
  | union pairs _ h ih =>
      refine Ty.wellFormed_of_buildUnion (fun m hm => ?_) h
      obtain ⟨p, hp, rfl⟩ := List.mem_map.mp hm
      exact ih p hp (ht.part (List.mem_map_of_mem hp))
  | mapped pairs hframe _ hnative ih => exact wellFormed_mapped_map_snd hframe ht ih hnative

end WellFormed

section Interchangeable

/-- Well-formed types, one of which equals the other or is an unfolding of it. -/
structure Varies (d : Declarations) (s t : Ty) : Prop where
  wellFormed : s.WellFormed
  wellFormed' : t.WellFormed
  beq_or_unfolds : s == t ∨ d.Unfolds s t

/-- Types that come from one another by unfolding, folding and reordering. -/
def Interchangeable (d : Declarations) : Ty → Ty → Prop :=
  EqvGen d.Varies

theorem Interchangeable.refl (t : Ty) : d.Interchangeable t t :=
  EqvGen.refl t

theorem Interchangeable.symm (h : d.Interchangeable s t) : d.Interchangeable t s :=
  EqvGen.symm _ _ h

theorem Interchangeable.trans (h : d.Interchangeable s t) (h' : d.Interchangeable t u) :
    d.Interchangeable s u :=
  EqvGen.trans _ _ _ h h'

theorem Interchangeable.wellFormed_iff (h : d.Interchangeable s t) :
    s.WellFormed ↔ t.WellFormed := by
  induction h with
  | rel _ _ h => exact ⟨fun _ => h.wellFormed', fun _ => h.wellFormed⟩
  | refl => exact Iff.rfl
  | symm _ _ _ ih => exact ih.symm
  | trans _ _ _ _ _ ih ih' => exact ih.trans ih'

theorem interchangeable_of_equal (h : Ty.Equal s t) : d.Interchangeable s t :=
  EqvGen.rel _ _ ⟨h.wellFormed, h.wellFormed', Or.inl h.beq⟩

theorem Unfolds.interchangeable (hd : d.WellFormed) (hs : s.WellFormed) (h : d.Unfolds s t) :
    d.Interchangeable s t :=
  EqvGen.rel _ _ ⟨hs, h.wellFormed hd hs, Or.inr h⟩

theorem unfolds_of_resolve (h : d.resolve s = .ok t) : d.Unfolds s t := by
  cases s with
  | named name => exact .name h (.refl t)
  | _ =>
      cases h
      exact .refl _

theorem unfolds_expanded (t : Ty) : d.Unfolds t t.expanded := by
  cases t with
  | mapped entries => exact .table (.refl _)
  | _ => exact .refl _

theorem StandsFor.interchangeable (hd : d.WellFormed) (hs : s.WellFormed) (h : d.StandsFor s x) :
    d.Interchangeable s x := by
  obtain ⟨r, hr, -, rfl⟩ := h
  have hresolved := (unfolds_of_resolve hr).interchangeable hd hs
  exact hresolved.trans ((unfolds_expanded r).interchangeable hd (hd.resolve hs hr))

end Interchangeable

section Linked

/-- Types that stand for structures with interchangeable parts, or that both stand for none. -/
structure Linked (d : Declarations) (s t : Ty) : Prop where
  forth : ∀ x, d.StandsFor s x → ∃ y, d.StandsFor t y ∧ Ty.Corresponds d.Interchangeable x y
  back : ∀ y, d.StandsFor t y → ∃ x, d.StandsFor s x ∧ Ty.Corresponds d.Interchangeable x y

theorem linked_of_structures (hx : d.StandsFor s x) (hy : d.StandsFor t y)
    (h : Ty.Corresponds d.Interchangeable x y) : d.Linked s t where
  forth := fun _ hx' => ⟨y, hy, hx.unique hx' ▸ h⟩
  back := fun _ hy' => ⟨x, hx, hy.unique hy' ▸ h⟩

theorem StandsFor.corresponds_self (h : d.StandsFor s x) :
    Ty.Corresponds d.Interchangeable x x :=
  Ty.corresponds_refl Interchangeable.refl h.isNamed_eq_false h.foreign?_eq_none h.ne_mapped

theorem StandsFor.linked (h : d.StandsFor s x) : d.Linked s x :=
  linked_of_structures h h.self h.corresponds_self

theorem Linked.refl (t : Ty) : d.Linked t t where
  forth := fun x hx => ⟨x, hx, hx.corresponds_self⟩
  back := fun x hx => ⟨x, hx, hx.corresponds_self⟩

theorem Linked.symm (h : d.Linked s t) : d.Linked t s where
  forth := fun y hy => by
    obtain ⟨x, hx, hxy⟩ := h.back y hy
    exact ⟨x, hx, hxy.symm fun _ _ => Interchangeable.symm⟩
  back := fun x hx => by
    obtain ⟨y, hy, hxy⟩ := h.forth x hx
    exact ⟨y, hy, hxy.symm fun _ _ => Interchangeable.symm⟩

theorem Linked.trans (h : d.Linked s t) (h' : d.Linked t u) : d.Linked s u where
  forth := fun x hx => by
    obtain ⟨y, hy, hxy⟩ := h.forth x hx
    obtain ⟨z, hz, hyz⟩ := h'.forth y hy
    exact ⟨z, hz, hxy.trans (fun _ _ _ => Interchangeable.trans) hyz⟩
  back := fun z hz => by
    obtain ⟨y, hy, hyz⟩ := h'.back z hz
    obtain ⟨x, hx, hxy⟩ := h.back y hy
    exact ⟨x, hx, hxy.trans (fun _ _ _ => Interchangeable.trans) hyz⟩

theorem Linked.of_resolve {s' : Ty} (hs : d.resolve s = .ok s') (h : d.Linked s' t) :
    d.Linked s t where
  forth := fun x hx => h.forth x (hx.of_resolve hs)
  back := fun y hy => by
    obtain ⟨x, hx, hxy⟩ := h.back y hy
    exact ⟨x, hx.of_resolved hs, hxy⟩

theorem linked_of_equal (h : Ty.Equal s t) : d.Linked s t := by
  cases hnamed : s.isNamed with
  | true =>
      have heq : s = t := by
        cases Ty.alike_of_beq h.beq with
        | named name => rfl
        | _ => cases hnamed
      exact heq ▸ .refl s
  | false =>
      have hnamed' := (Assignability.isNamed_eq_of_beq h.beq).symm.trans hnamed
      cases hforeign : s.foreign? with
      | some v =>
          have hnot : s.foreign? ≠ none := by simp [hforeign]
          have hnot' : t.foreign? ≠ none := fun ht =>
            hnot (Assignability.foreign?_eq_none_of_beq h.symm.beq ht)
          exact ⟨fun x hx => absurd hx.native hnot, fun y hy => absurd hy.native hnot'⟩
      | none =>
          have hforeign' := Assignability.foreign?_eq_none_of_beq h.beq hforeign
          refine linked_of_structures ⟨s, resolve_of_not_named hnamed, hforeign, rfl⟩
            ⟨t, resolve_of_not_named hnamed', hforeign', rfl⟩ ?_
          exact (h.corresponds hnamed hforeign).mono_parts fun a _ b _ => interchangeable_of_equal

theorem slots_correspond {pairs : List (Slot Ty × Slot Ty)}
    (hframe : ∀ p ∈ pairs, p.1.SameModifiers p.2)
    (htype : ∀ p ∈ pairs, d.Interchangeable p.1.type p.2.type) :
    List.Forall₂ (Slot.Corresponds d.Interchangeable) (pairs.map Prod.fst)
      (pairs.map Prod.snd) := by
  rw [List.forall₂_map_left_iff, List.forall₂_map_right_iff, List.forall₂_same]
  exact fun p hp => ⟨htype p hp, (hframe p hp).1, (hframe p hp).2⟩

theorem members_correspond {pairs : List (Ty × Ty)} (hwf : ∀ p ∈ pairs, p.2.WellFormed)
    (h : ∀ p ∈ pairs, d.Interchangeable p.1 p.2) :
    Ty.Corresponds d.Interchangeable (.union (pairs.map Prod.fst))
      (.union (Ty.distinct (pairs.map Prod.snd))) := by
  have hwf' : ∀ m ∈ pairs.map Prod.snd, m.WellFormed := by
    intro m hm
    obtain ⟨p, hp, rfl⟩ := List.mem_map.mp hm
    exact hwf p hp
  refine .union (fun m hm => ?_) fun m' hm' => ?_
  · obtain ⟨p, hp, rfl⟩ := List.mem_map.mp hm
    obtain ⟨m', hm', hbeq⟩ := Ty.exists_mem_distinct hwf' (List.mem_map_of_mem hp)
    have hequal : Ty.Equal m' p.2 := ⟨hwf' m' (Ty.mem_of_mem_distinct hm'), hwf p hp, hbeq⟩
    exact ⟨m', hm', (h p hp).trans (interchangeable_of_equal hequal).symm⟩
  · obtain ⟨p, hp, rfl⟩ := List.mem_map.mp (Ty.mem_of_mem_distinct hm')
    exact ⟨p.1, List.mem_map_of_mem hp, h p hp⟩

theorem linked_of_unfolds (hd : d.WellFormed) (hs : s.WellFormed) (h : d.Unfolds s t) :
    d.Linked s t := by
  induction h with
  | refl t => exact .refl t
  | name h _ ih => exact .of_resolve h (ih (hd.resolve hs h))
  | @table entries _ _ ih =>
      have hobject : d.StandsFor (.mapped entries) (Ty.mapped entries).expanded :=
        ⟨_, rfl, rfl, rfl⟩
      exact hobject.linked.trans (ih hs.expanded)
  | object pairs hframe htype hindex hvalue =>
      refine linked_of_structures ⟨_, rfl, rfl, rfl⟩ ⟨_, rfl, rfl, rfl⟩
        (.object (Ty.fieldsCorrespond_of_pairs hframe fun p hp => ?_) ?_)
      · exact (htype p hp).interchangeable hd
          (hs.part (Ty.mem_parts_of_mem_fields (List.mem_map_of_mem hp)))
      · cases hindex with
        | none => exact .none
        | @some r q hrq =>
            refine .some ⟨hrq.1 ▸ .refl _, hrq.1 ▸ .refl _, ?_, hrq.2⟩
            exact (hvalue r rfl q rfl).interchangeable hd (hs.part Ty.value_mem_parts)
  | array readonly h =>
      exact linked_of_structures ⟨_, rfl, rfl, rfl⟩ ⟨_, rfl, rfl, rfl⟩
        (.array readonly (h.interchangeable hd (hs.part (by simp [Ty.parts]))))
  | tuple pairs hframe htype =>
      refine linked_of_structures ⟨_, rfl, rfl, rfl⟩ ⟨_, rfl, rfl, rfl⟩
        (.tuple (slots_correspond hframe fun p hp => ?_))
      exact (htype p hp).interchangeable hd
        (hs.part (List.mem_map_of_mem (List.mem_map_of_mem hp)))
  | union pairs hmembers h =>
      obtain ⟨rfl, -, -⟩ := Ty.buildUnion_eq_ok h
      have hwf : ∀ p ∈ pairs, p.1.WellFormed := fun p hp => hs.part (List.mem_map_of_mem hp)
      refine linked_of_structures (standsFor_union _) (standsFor_union _)
        (members_correspond (fun p hp => ?_) fun p hp => ?_)
      · exact (hmembers p hp).wellFormed hd (hwf p hp)
      · exact (hmembers p hp).interchangeable hd (hwf p hp)
  | mapped pairs hframe htype =>
      refine linked_of_structures ⟨_, rfl, rfl, rfl⟩ ⟨_, rfl, rfl, rfl⟩
        (.object (Ty.fieldsCorrespond_of_pairs hframe fun p hp => ?_) .none)
      exact (htype p hp).interchangeable hd
        (hs.part (Ty.mem_parts_of_mem_entries (List.mem_map_of_mem hp)))

/-- Interchangeable types stand for structures with interchangeable parts. -/
theorem Interchangeable.linked (hd : d.WellFormed) (h : d.Interchangeable s t) : d.Linked s t := by
  induction h with
  | rel s t h =>
      rcases h.beq_or_unfolds with hbeq | hunfolds
      · exact linked_of_equal ⟨h.wellFormed, h.wellFormed', hbeq⟩
      · exact linked_of_unfolds hd h.wellFormed hunfolds
  | refl t => exact .refl t
  | symm _ _ _ ih => exact ih.symm
  | trans _ _ _ _ _ ih ih' => exact ih.trans ih'

end Linked

end Declarations

end StructuralTypes
