import StructuralTypes.Proofs.Assignable

/-!
Types that correspond: the same structure, with parts that a relation pairs. Order of fields and of
union members does not matter. What one step of assignability says of two types it says of types
that correspond to them, when the relations one level down agree on the parts. A source may moreover
be loosened: it may lose readonly flags and union members.
-/

namespace StructuralTypes

/-- Slots with the same modifiers whose types are related. -/
structure Slot.Corresponds (E : Ty → Ty → Prop) (s t : Slot Ty) : Prop where
  type : E s.type t.type
  readonly : s.readonly = t.readonly
  optional : s.optional = t.optional

/-- Slots with the same modifiers. -/
def Slot.SameModifiers (s t : Slot Ty) : Prop :=
  s.readonly = t.readonly ∧ s.optional = t.optional

/-- Index rules over one domain whose types are related. -/
structure IndexRule.Corresponds (E : Ty → Ty → Prop) (r q : IndexRule Ty) : Prop where
  domain : r.key.SameDomain q.key
  key : E r.key q.key
  value : E r.value q.value
  readonly : r.readonly = q.readonly

/-- Slots with related types, of which the second may have lost a readonly flag. -/
structure Slot.Loosened (E : Ty → Ty → Prop) (s t : Slot Ty) : Prop where
  type : E s.type t.type
  readonly : t.readonly = true → s.readonly = true
  optional : s.optional = t.optional

theorem Slot.Corresponds.loosened {E : Ty → Ty → Prop} {s t : Slot Ty} (h : s.Corresponds E t) :
    s.Loosened E t :=
  ⟨h.type, fun ht => h.readonly.trans ht, h.optional⟩

/-- Index rules over one domain with related values, of which the second may have lost a readonly
flag. -/
structure IndexRule.Loosened (E : Ty → Ty → Prop) (r q : IndexRule Ty) : Prop where
  domain : r.key.SameDomain q.key
  value : E r.value q.value
  readonly : q.readonly = true → r.readonly = true

section OptionRel

variable {α β γ : Type} {r : α → β → Prop} {o : Option α} {o' : Option β}

theorem exists_of_rel_some {a : α} (h : Option.Rel r o o') (ha : o = some a) :
    ∃ b, o' = some b ∧ r a b := by
  subst ha
  cases h with
  | some hab => exact ⟨_, rfl, hab⟩

theorem exists_of_rel_some_right {b : β} (h : Option.Rel r o o') (hb : o' = some b) :
    ∃ a, o = some a ∧ r a b := by
  subst hb
  cases h with
  | some hab => exact ⟨_, rfl, hab⟩

theorem eq_none_iff_of_rel (h : Option.Rel r o o') : o = none ↔ o' = none := by
  cases h <;> simp

theorem rel_mono {r' : α → β → Prop} (hr : ∀ a b, o = some a → o' = some b → r a b → r' a b)
    (h : Option.Rel r o o') : Option.Rel r' o o' := by
  cases h with
  | some hab => exact .some (hr _ _ rfl rfl hab)
  | none => exact .none

theorem rel_flip {r' : β → α → Prop} (hr : ∀ a b, r a b → r' b a) (h : Option.Rel r o o') :
    Option.Rel r' o' o := by
  cases h with
  | some hab => exact .some (hr _ _ hab)
  | none => exact .none

theorem rel_comp {q : β → γ → Prop} {p : α → γ → Prop} {o'' : Option γ}
    (hr : ∀ a b c, r a b → q b c → p a c) (h : Option.Rel r o o') (h' : Option.Rel q o' o'') :
    Option.Rel p o o'' := by
  cases h with
  | some hab =>
      cases h' with
      | some hbc => exact .some (hr _ _ _ hab hbc)
  | none =>
      cases h'
      exact .none

end OptionRel

theorem exists_of_mem_forall₂ {α β : Type} {P : α → β → Prop} {l : List α} {l' : List β}
    (h : List.Forall₂ P l l') {b : β} (hb : b ∈ l') : ∃ a ∈ l, P a b := by
  obtain ⟨i, hi, rfl⟩ := List.mem_iff_getElem.mp hb
  have hi' : i < l.length := h.length_eq ▸ hi
  exact ⟨l[i], List.getElem_mem hi', h.get hi' hi⟩

namespace Ty

/-- Fields of one name with the same modifiers. -/
def SameFrame (f g : String × Slot Ty) : Prop :=
  f.1 = g.1 ∧ f.2.SameModifiers g.2

/-- Fields under the same names correspond. -/
def FieldsCorrespond (E : Ty → Ty → Prop) (fields fields' : List (String × Slot Ty)) : Prop :=
  ∀ name, Option.Rel (Slot.Corresponds E) (fields.lookup name) (fields'.lookup name)

/-- The same structure around related parts. Names, mapped types and foreign values are no
structures. -/
inductive Corresponds (E : Ty → Ty → Prop) : Ty → Ty → Prop
  | primitive (name : String) : Corresponds E (.primitive name) (.primitive name)
  | literal {l m : Literal} (h : l.same m = true) : Corresponds E (.literal l) (.literal m)
  | object {fields fields' : List (String × Slot Ty)} {index index' : Option (IndexRule Ty)}
      (hfields : FieldsCorrespond E fields fields')
      (hindex : Option.Rel (IndexRule.Corresponds E) index index') :
      Corresponds E (.object fields index) (.object fields' index')
  | array {element element' : Ty} (readonly : Bool) (h : E element element') :
      Corresponds E (.array element readonly) (.array element' readonly)
  | tuple {elements elements' : List (Slot Ty)}
      (h : List.Forall₂ (Slot.Corresponds E) elements elements') :
      Corresponds E (.tuple elements) (.tuple elements')
  | union {members members' : List Ty} (forth : ∀ m ∈ members, ∃ m' ∈ members', E m m')
      (back : ∀ m' ∈ members', ∃ m ∈ members, E m m') :
      Corresponds E (.union members) (.union members')

/-- Fields under the same names, of which the second may have lost readonly flags. -/
def FieldsLoosened (E : Ty → Ty → Prop) (fields fields' : List (String × Slot Ty)) : Prop :=
  ∀ name, Option.Rel (Slot.Loosened E) (fields.lookup name) (fields'.lookup name)

/-- The same structure around related parts, without some readonly flags and union members. -/
inductive Loosened (E : Ty → Ty → Prop) : Ty → Ty → Prop
  | primitive (name : String) : Loosened E (.primitive name) (.primitive name)
  | literal {l m : Literal} (h : l.same m = true) : Loosened E (.literal l) (.literal m)
  | object {fields fields' : List (String × Slot Ty)} {index index' : Option (IndexRule Ty)}
      (hfields : FieldsLoosened E fields fields')
      (hindex : Option.Rel (IndexRule.Loosened E) index index') :
      Loosened E (.object fields index) (.object fields' index')
  | array {element element' : Ty} {readonly readonly' : Bool}
      (hreadonly : readonly' = true → readonly = true) (h : E element element') :
      Loosened E (.array element readonly) (.array element' readonly')
  | tuple {elements elements' : List (Slot Ty)}
      (h : List.Forall₂ (Slot.Loosened E) elements elements') :
      Loosened E (.tuple elements) (.tuple elements')
  | union {members members' : List Ty} (back : ∀ m' ∈ members', ∃ m ∈ members, E m m') :
      Loosened E (.union members) (.union members')

variable {E F : Ty → Ty → Prop} {x y z : Ty}

theorem Corresponds.loosened (h : Corresponds E x y) : Loosened E x y := by
  cases h with
  | primitive name => exact .primitive name
  | literal h => exact .literal h
  | object hfields hindex =>
      refine .object (fun name => rel_mono (fun s t _ _ hst => hst.loosened) (hfields name))
        (rel_mono (fun r q _ _ hrq => ?_) hindex)
      exact ⟨hrq.domain, hrq.value, fun hq => hrq.readonly.trans hq⟩
  | array readonly h => exact .array id h
  | tuple h => exact .tuple (h.imp fun _ _ hst => hst.loosened)
  | union _ back => exact .union back

theorem Corresponds.symm (hE : ∀ a b, E a b → F b a) (h : Corresponds E x y) :
    Corresponds F y x := by
  have hslot : ∀ s t : Slot Ty, s.Corresponds E t → t.Corresponds F s :=
    fun s t hst => ⟨hE _ _ hst.type, hst.readonly.symm, hst.optional.symm⟩
  cases h with
  | primitive name => exact .primitive name
  | literal h => exact .literal (Literal.same_symm h)
  | object hfields hindex =>
      refine .object (fun name => rel_flip hslot (hfields name))
        (rel_flip (fun r q hrq => ?_) hindex)
      exact ⟨hrq.domain.symm, hE _ _ hrq.key, hE _ _ hrq.value, hrq.readonly.symm⟩
  | array readonly h => exact .array readonly (hE _ _ h)
  | tuple h => exact .tuple (List.Forall₂.flip (h.imp hslot))
  | union forth back =>
      refine .union (fun m' hm' => ?_) fun m hm => ?_
      · obtain ⟨m, hm, hmm⟩ := back m' hm'
        exact ⟨m, hm, hE m m' hmm⟩
      · obtain ⟨m', hm', hmm⟩ := forth m hm
        exact ⟨m', hm', hE m m' hmm⟩

theorem Corresponds.trans (hE : ∀ a b c, E a b → E b c → E a c) (h : Corresponds E x y)
    (h' : Corresponds E y z) : Corresponds E x z := by
  have hslot : ∀ s t u : Slot Ty, s.Corresponds E t → t.Corresponds E u → s.Corresponds E u :=
    fun s t u hst htu => ⟨hE _ _ _ hst.type htu.type, hst.readonly.trans htu.readonly,
      hst.optional.trans htu.optional⟩
  cases h with
  | primitive name => exact h'
  | literal h =>
      cases h' with
      | literal h' => exact .literal (Literal.same_trans h h')
  | object hfields hindex =>
      cases h' with
      | object hfields' hindex' =>
          refine .object (fun name => rel_comp hslot (hfields name) (hfields' name))
            (rel_comp (fun r q p hrq hqp => ?_) hindex hindex')
          exact ⟨hrq.domain.trans hqp.domain, hE _ _ _ hrq.key hqp.key,
            hE _ _ _ hrq.value hqp.value, hrq.readonly.trans hqp.readonly⟩
  | array readonly h =>
      cases h' with
      | array _ h' => exact .array readonly (hE _ _ _ h h')
  | tuple h =>
      cases h' with
      | tuple h' =>
          refine .tuple (List.forall₂_iff_get.mpr ⟨h.length_eq.trans h'.length_eq, ?_⟩)
          intro i hi hi'
          have hi'' := h.length_eq ▸ hi
          exact hslot _ _ _ ((List.forall₂_iff_get.mp h).2 i hi hi'')
            ((List.forall₂_iff_get.mp h').2 i hi'' hi')
  | union forth back =>
      cases h' with
      | union forth' back' =>
          refine .union (fun m hm => ?_) fun m'' hm'' => ?_
          · obtain ⟨m', hm', hmm⟩ := forth m hm
            obtain ⟨m'', hm'', hmm'⟩ := forth' m' hm'
            exact ⟨m'', hm'', hE _ _ _ hmm hmm'⟩
          · obtain ⟨m', hm', hmm'⟩ := back' m'' hm''
            obtain ⟨m, hm, hmm⟩ := back m' hm'
            exact ⟨m, hm, hE _ _ _ hmm hmm'⟩

theorem corresponds_refl (hE : ∀ a, E a a) (hnamed : x.isNamed = false)
    (hforeign : x.foreign? = none) (hmapped : ∀ entries, x ≠ .mapped entries) :
    Corresponds E x x := by
  have hslot : ∀ s : Slot Ty, s.Corresponds E s := fun s => ⟨hE _, rfl, rfl⟩
  cases x with
  | primitive name => exact .primitive name
  | literal l => exact .literal (Literal.same_refl l)
  | object fields index =>
      refine .object (fun name => ?_) ?_
      · cases fields.lookup name with
        | none => exact .none
        | some s => exact .some (hslot s)
      · cases index with
        | none => exact .none
        | some r => exact .some ⟨.refl _, hE _, hE _, rfl⟩
  | array element readonly => exact .array readonly (hE element)
  | tuple elements => exact .tuple (List.forall₂_same.mpr fun s _ => hslot s)
  | union members => exact .union (fun m hm => ⟨m, hm, hE m⟩) fun m hm => ⟨m, hm, hE m⟩
  | mapped entries => exact absurd rfl (hmapped entries)
  | named name => cases hnamed
  | foreign v => cases hforeign

theorem Corresponds.mono_parts (hE : ∀ a ∈ x.parts, ∀ b ∈ y.parts, E a b → F a b)
    (h : Corresponds E x y) : Corresponds F x y := by
  cases h with
  | primitive name => exact .primitive name
  | literal h => exact .literal h
  | object hfields hindex =>
      refine .object (fun name => rel_mono (fun s t hs ht hst => ?_) (hfields name))
        (rel_mono (fun r q hr hq hrq => ?_) hindex)
      · exact ⟨hE _ (mem_parts_of_mem_fields (Assoc.mem_of_lookup hs)) _
          (mem_parts_of_mem_fields (Assoc.mem_of_lookup ht)) hst.type, hst.readonly, hst.optional⟩
      · subst hr hq
        exact ⟨hrq.domain, hE _ key_mem_parts _ key_mem_parts hrq.key,
          hE _ value_mem_parts _ value_mem_parts hrq.value, hrq.readonly⟩
  | array readonly h => exact .array readonly (hE _ (by simp [parts]) _ (by simp [parts]) h)
  | tuple h =>
      refine .tuple (List.forall₂_iff_get.mpr ⟨h.length_eq, fun i hi hi' => ?_⟩)
      have hst := (List.forall₂_iff_get.mp h).2 i hi hi'
      refine ⟨hE _ ?_ _ ?_ hst.type, hst.readonly, hst.optional⟩
      · exact List.mem_map_of_mem (List.get_mem _ _)
      · exact List.mem_map_of_mem (List.get_mem _ _)
  | union forth back =>
      refine .union (fun m hm => ?_) fun m' hm' => ?_
      · obtain ⟨m', hm', hmm⟩ := forth m hm
        exact ⟨m', hm', hE m hm m' hm' hmm⟩
      · obtain ⟨m, hm, hmm⟩ := back m' hm'
        exact ⟨m, hm, hE m hm m' hm' hmm⟩

theorem Corresponds.eq_primitive_iff {name : String} (h : Corresponds E x y) :
    x = .primitive name ↔ y = .primitive name := by
  cases h <;> simp

theorem Loosened.eq_primitive_iff {name : String} (h : Loosened E x y) :
    x = .primitive name ↔ y = .primitive name := by
  cases h <;> simp

section Fields

variable {fields fields' : List (String × Slot Ty)} {name : String} {s s' : Slot Ty}

theorem FieldsLoosened.exists_of_mem (h : FieldsLoosened E fields fields')
    (hnodup : (Assoc.names fields').Nodup) (hs' : (name, s') ∈ fields') :
    ∃ s, fields.lookup name = some s ∧ s.Loosened E s' :=
  exists_of_rel_some_right (h name) (Assoc.lookup_of_mem hnodup hs')

theorem FieldsCorrespond.exists_of_mem (h : FieldsCorrespond E fields fields')
    (hnodup : (Assoc.names fields').Nodup) (hs' : (name, s') ∈ fields') :
    ∃ s, fields.lookup name = some s ∧ s.Corresponds E s' :=
  exists_of_rel_some_right (h name) (Assoc.lookup_of_mem hnodup hs')

theorem FieldsCorrespond.mem_names_iff (h : FieldsCorrespond E fields fields') (name : String) :
    name ∈ Assoc.names fields ↔ name ∈ Assoc.names fields' := by
  rw [← not_iff_not, ← Assoc.lookup_eq_none_iff, ← Assoc.lookup_eq_none_iff]
  exact eq_none_iff_of_rel (h name)

theorem fieldsCorrespond_of_pairs {pairs : List ((String × Slot Ty) × (String × Slot Ty))}
    (hframe : ∀ p ∈ pairs, SameFrame p.1 p.2) (htype : ∀ p ∈ pairs, E p.1.2.type p.2.2.type) :
    FieldsCorrespond E (pairs.map Prod.fst) (pairs.map Prod.snd) := by
  intro name
  induction pairs with
  | nil => exact .none
  | cons p rest ih =>
      obtain ⟨⟨n, s⟩, ⟨n', t⟩⟩ := p
      rw [List.forall_mem_cons] at hframe htype
      obtain ⟨hname, hreadonly, hoptional⟩ := hframe.1
      have hname' : n = n' := hname
      subst hname'
      simp only [List.map_cons, List.lookup_cons]
      split
      · exact .some ⟨htype.1, hreadonly, hoptional⟩
      · exact ih hframe.2 htype.2

theorem Corresponds.exists_part (hy : y.WellFormed) (h : Corresponds E x y) {b : Ty}
    (hb : b ∈ y.parts) : ∃ a ∈ x.parts, E a b := by
  cases h with
  | primitive name => cases hb
  | literal h => cases hb
  | object hfields hindex =>
      rw [parts, List.mem_append, List.mem_map, List.mem_flatMap] at hb
      rcases hb with ⟨⟨name, t⟩, ht, rfl⟩ | ⟨q, hq, hb⟩
      · obtain ⟨s, hs, hst⟩ := hfields.exists_of_mem hy.names_nodup ht
        exact ⟨s.type, mem_parts_of_mem_fields (Assoc.mem_of_lookup hs), hst.type⟩
      · obtain ⟨r, hr, hrq⟩ := exists_of_rel_some_right hindex (Option.mem_toList.mp hq)
        subst hr
        rcases List.mem_cons.mp hb with rfl | hb
        · exact ⟨r.key, key_mem_parts, hrq.key⟩
        · rw [List.mem_singleton.mp hb]
          exact ⟨r.value, value_mem_parts, hrq.value⟩
  | array readonly h =>
      rw [List.mem_singleton.mp hb]
      exact ⟨_, by simp [parts], h⟩
  | tuple h =>
      obtain ⟨t, ht, rfl⟩ := List.mem_map.mp hb
      obtain ⟨s, hs, hst⟩ := exists_of_mem_forall₂ h ht
      exact ⟨s.type, List.mem_map_of_mem hs, hst.type⟩
  | union _ back => exact back b hb

end Fields

end Ty

namespace Assignability

/-- What one relation says of types another says of the types they are paired with, where sources
and targets are paired in different ways. -/
def Carries (E F R R' : Ty → Ty → Prop) : Prop :=
  ∀ a a' b b', E a a' → F b b' → R a b → R' a' b'

theorem exists_mem_zip_of_forall₂ {α β γ δ : Type} {P : α → γ → Prop} {Q : β → δ → Prop}
    {l : List α} {l' : List γ} {m : List β} {m' : List δ} (hl : List.Forall₂ P l l')
    (hm : List.Forall₂ Q m m') :
    ∀ p' ∈ l'.zip m', ∃ p ∈ l.zip m, P p.1 p'.1 ∧ Q p.2 p'.2 := by
  induction hl generalizing m m' with
  | nil => simp
  | cons hab _ ih =>
      cases hm with
      | nil => simp
      | cons hcd hrest =>
          intro p' hp'
          rw [List.zip_cons_cons, List.mem_cons] at hp'
          rcases hp' with rfl | hp'
          · exact ⟨_, List.mem_cons_self, hab, hcd⟩
          · obtain ⟨p, hp, hpp⟩ := ih hrest p' hp'
            exact ⟨p, List.mem_cons_of_mem _ hp, hpp⟩

section Positions

variable {P : Slot Ty → Slot Ty → Prop} {elements elements' : List (Slot Ty)}

theorem requiredCount_congr (hP : ∀ s t, P s t → s.optional = t.optional)
    (h : List.Forall₂ P elements elements') :
    Ty.requiredCount elements = Ty.requiredCount elements' := by
  induction h with
  | nil => rfl
  | cons hst _ ih =>
      simp only [Ty.requiredCount, List.countP_cons] at ih ⊢
      rw [ih, hP _ _ hst]

theorem leastLength_congr (policy : Policy) (hP : ∀ s t, P s t → s.optional = t.optional)
    (h : List.Forall₂ P elements elements') :
    leastLength policy elements = leastLength policy elements' := by
  unfold leastLength
  rw [requiredCount_congr hP h, h.length_eq]

theorem leastLength_le_length (policy : Policy) (elements : List (Slot Ty)) :
    leastLength policy elements ≤ elements.length := by
  unfold leastLength
  split
  · exact List.countP_le_length
  · exact le_rfl

end Positions

section Transfer

variable {policy : Policy} {E F R R' : Ty → Ty → Prop}

theorem ValueFits.transfer (hR : Carries E F R R') {s s' t t' : Ty}
    {readonly readonly' flag flag' : Bool} (hs : E s s') (ht : F t t')
    (hflag : flag = true → readonly = true) (hflag' : readonly' = flag')
    (h : ValueFits R s readonly t readonly') : ValueFits R' s' flag t' flag' :=
  ⟨hR s s' t t' hs ht h.1, fun hf => hflag' ▸ h.2 (hflag hf)⟩

theorem SlotFits.transfer (hR : Carries E F R R') {s s' t t' : Slot Ty} (hs : s.Loosened E s')
    (ht : t.Corresponds F t') (h : SlotFits R s t) : SlotFits R' s' t' := by
  refine ⟨hR _ _ _ _ hs.type ht.type h.1, ?_, ?_⟩
  · rw [← hs.optional, ← ht.optional]
    exact h.2.1
  · rw [← ht.readonly]
    exact fun hreadonly => h.2.2 (hs.readonly hreadonly)

theorem FieldFits.transfer (hR : Carries E F R R') {source source' : ObjectTy} {name : String}
    {t t' : Slot Ty} (hfields : Ty.FieldsLoosened E source.fields source'.fields)
    (hindex : Option.Rel (IndexRule.Loosened E) source.index source'.index)
    (ht : t.Corresponds F t') (h : FieldFits policy R source name t) :
    FieldFits policy R' source' name t' := by
  cases h with
  | declared h fits =>
      obtain ⟨s', hs', hss⟩ := exists_of_rel_some (hfields name) h
      exact .declared hs' (fits.transfer hR hss ht)
  | absent h optional =>
      exact .absent ((eq_none_iff_of_rel (hfields name)).mp h) (ht.optional ▸ optional)
  | supplied h hr allowed hname fits =>
      obtain ⟨r', hr', hrr⟩ := exists_of_rel_some hindex hr
      exact .supplied ((eq_none_iff_of_rel (hfields name)).mp h) hr' allowed
        ((hrr.domain.hasName name).mp hname)
        (fits.transfer hR hrr.value ht.type hrr.readonly ht.readonly)

theorem ObjectFits.transfer (hR : Carries E F R R') {source source' target target' : ObjectTy}
    (hs' : source'.toTy.WellFormed) (ht' : target'.toTy.WellFormed)
    (hfields : Ty.FieldsLoosened E source.fields source'.fields)
    (hindex : Option.Rel (IndexRule.Loosened E) source.index source'.index)
    (hfields' : Ty.FieldsCorrespond F target.fields target'.fields)
    (hindex' : Option.Rel (IndexRule.Corresponds F) target.index target'.index)
    (h : ObjectFits policy R source target) : ObjectFits policy R' source' target' where
  fields := by
    rintro ⟨name, t'⟩ hmem
    obtain ⟨t, ht, htt⟩ := hfields'.exists_of_mem ht'.names_nodup hmem
    exact (h.fields _ (Assoc.mem_of_lookup ht)).transfer hR hfields hindex htt
  extras := by
    rintro q' hq' ⟨name, s'⟩ hmem hnot hname
    obtain ⟨q, hq, hqq⟩ := exists_of_rel_some_right hindex' hq'
    obtain ⟨s, hs, hss⟩ := hfields.exists_of_mem hs'.names_nodup hmem
    have hnot' : target.contains name = false := by
      rw [← Bool.not_eq_true, ObjectTy.contains, Assoc.contains_iff_mem_names] at hnot ⊢
      rwa [hfields'.mem_names_iff]
    have hfits := h.extras q hq _ (Assoc.mem_of_lookup hs) hnot'
      ((hqq.domain.hasName name).mpr hname)
    exact hfits.transfer hR hss.type hqq.value hss.readonly hqq.readonly
  index := by
    intro q' hq' r' hr'
    obtain ⟨q, hq, hqq⟩ := exists_of_rel_some_right hindex' hq'
    obtain ⟨r, hr, hrr⟩ := exists_of_rel_some_right hindex hr'
    obtain ⟨hcovers, hfits⟩ := h.index q hq r hr
    exact ⟨(hqq.domain.covered _).mp ((hrr.domain.covers _).mp hcovers),
      hfits.transfer hR hrr.value hqq.value hrr.readonly hqq.readonly⟩

variable {s s' t t' : Ty}

theorem KindFits.transfer (hR : Carries E F R R') (hs' : s'.WellFormed) (ht' : t'.WellFormed)
    (hss : E s s') (htt : F t t') (hs : Ty.Loosened E s s') (ht : Ty.Corresponds F t t')
    (h : KindFits policy R s t) : KindFits policy R' s' t' := by
  cases h with
  | unionSource h =>
      cases hs with
      | union back =>
          refine .unionSource fun m' hm' => ?_
          obtain ⟨m, hm, hmm⟩ := back m' hm'
          exact hR m m' t t' hmm htt (h m hm)
  | unionTarget hne hm h =>
      cases ht with
      | union forth _ =>
          obtain ⟨m', hm', hmm⟩ := forth _ hm
          refine .unionTarget ?_ hm' (hR s s' _ m' hss hmm h)
          rintro members' rfl
          cases hs
          exact hne _ rfl
  | widening h =>
      cases hs with
      | literal hl =>
          cases ht with
          | primitive =>
              rw [Literal.kind_eq_of_same hl]
              exact .widening h
  | array h =>
      cases hs with
      | array hreadonly he =>
          cases ht with
          | array _ he' => exact .array (h.transfer hR he he' hreadonly rfl)
  | tupleArray h =>
      cases hs with
      | tuple hslots =>
          cases ht with
          | array _ he' =>
              refine .tupleArray fun p' hp' => ?_
              obtain ⟨p, hp, hpp⟩ := exists_of_mem_forall₂ hslots hp'
              exact (h p hp).transfer hR hpp.type he' hpp.readonly rfl
  | tuple least most h =>
      cases hs with
      | tuple hslots =>
          cases ht with
          | tuple hslots' =>
              refine .tuple ?_ ?_ fun p' hp' => ?_
              · rw [← leastLength_congr policy (fun _ _ hst => hst.optional) hslots',
                  ← hslots.length_eq]
                exact least
              · rw [← hslots.length_eq, ← hslots'.length_eq]
                exact most
              · obtain ⟨p, hp, hpp, hpp'⟩ := exists_mem_zip_of_forall₂ hslots hslots' p' hp'
                exact (h p hp).transfer hR hpp hpp'
  | object h =>
      cases hs with
      | object hfields hindex =>
          cases ht with
          | object hfields' hindex' =>
              exact .object (h.transfer hR hs' ht' hfields hindex hfields' hindex')

/-- The rules by parts carry over to a loosened source and a target that corresponds. -/
theorem FitsByParts.transfer (hR : Carries E F R R') (hs' : s'.WellFormed) (ht' : t'.WellFormed)
    (hss : E s s') (htt : F t t') (hs : Ty.Loosened E s s') (ht : Ty.Corresponds F t t')
    (h : FitsByParts policy R s t) : FitsByParts policy R' s' t' := by
  cases h with
  | atom hatom h =>
      cases hs with
      | primitive name =>
          cases Ty.alike_of_beq h
          cases ht
          exact .atom rfl (Ty.Alike.primitive name).beq
      | literal hl =>
          cases Ty.alike_of_beq h with
          | literal hlm =>
              cases ht with
              | literal hm =>
                  exact .atom rfl (Ty.Alike.literal
                    (Literal.same_trans (Literal.same_symm hl) (Literal.same_trans hlm hm))).beq
      | _ => cases hatom
  | always h =>
      apply FitsByParts.always
      simpa only [FitsAlways, hs.eq_primitive_iff, ht.eq_primitive_iff] using h
  | kind hnever hunknown h =>
      refine .kind ?_ ?_ (h.transfer hR hs' ht' hss htt hs ht)
      · rwa [ne_eq, ← ht.eq_primitive_iff]
      · rwa [ne_eq, ← hs.eq_primitive_iff]

end Transfer

section Reflexive

variable {policy : Policy} {E R : Ty → Ty → Prop} {x y : Ty}

theorem objectFits_of_correspond (hR : ∀ a b, E a b → R a b) {source target : ObjectTy}
    (hs : source.toTy.WellFormed) (ht : target.toTy.WellFormed)
    (hfields : Ty.FieldsCorrespond E source.fields target.fields)
    (hindex : Option.Rel (IndexRule.Corresponds E) source.index target.index) :
    ObjectFits policy R source target where
  fields := by
    rintro ⟨name, t⟩ hmem
    obtain ⟨s, hs, hst⟩ := hfields.exists_of_mem ht.names_nodup hmem
    refine .declared hs ⟨hR _ _ hst.type, ?_, ?_⟩
    · rw [hst.optional]
      exact id
    · rw [hst.readonly]
      exact id
  extras := by
    rintro q hq ⟨name, s⟩ hmem hnot
    rw [← Bool.not_eq_true, ObjectTy.contains, Assoc.contains_iff_mem_names,
      ← hfields.mem_names_iff] at hnot
    exact absurd (List.mem_map_of_mem (f := Prod.fst) hmem) hnot
  index := by
    intro q hq r hr
    obtain ⟨r', hr', hrq⟩ := exists_of_rel_some_right hindex hq
    cases hr.symm.trans hr'
    have hdomain : r.key.isKeyDomain = true := by
      have hall := hs.wellMade.2
      rwa [hr, Option.all_some] at hall
    refine ⟨(hrq.domain.covered _).mp (Ty.covers_refl hdomain), hR _ _ hrq.value, ?_⟩
    rw [hrq.readonly]
    exact id

/-- A structure that is no union fits a structure that corresponds to it, part by part. -/
theorem fits_of_corresponds (hR : ∀ a b, E a b → R a b) (hx : x.WellFormed) (hy : y.WellFormed)
    (hunion : ∀ members, x ≠ .union members) (h : Ty.Corresponds E x y) :
    FitsByParts policy R x y := by
  cases h with
  | primitive name => exact .atom rfl (Ty.Alike.primitive name).beq
  | literal h => exact .atom rfl (Ty.Alike.literal h).beq
  | object hfields hindex =>
      exact .kind (by simp) (by simp)
        (.object (objectFits_of_correspond hR hx hy hfields hindex))
  | array readonly h => exact .kind (by simp) (by simp) (.array ⟨hR _ _ h, id⟩)
  | tuple h =>
      refine .kind (by simp) (by simp) (.tuple ?_ h.length_eq.le fun p hp => ?_)
      · rw [h.length_eq]
        exact leastLength_le_length policy _
      · have hst := List.forall₂_iff_zip.mp h |>.2 hp
        refine ⟨hR _ _ hst.type, ?_, ?_⟩
        · rw [hst.optional]
          exact id
        · rw [hst.readonly]
          exact id
  | union => exact absurd rfl (hunion _)

end Reflexive

end Assignability

end StructuralTypes
