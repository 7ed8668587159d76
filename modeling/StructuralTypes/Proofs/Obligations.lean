import StructuralTypes.Proofs.Assignable

namespace StructuralTypes.Assignability

/-- An obligation is met where its parts fit. -/
def Obligation.Met (R : Ty → Ty → Prop) : Obligation → Prop
  | .fits _ s t => R s t
  | .unmet .. => False
  | .fault _ => False

def Obligation.Refuted (R : Ty → Ty → Prop) : Obligation → Prop
  | .fits _ s t => ¬ R s t
  | .unmet .. => True
  | .fault _ => False

/-- Obligations from which a statement can be told true or false. -/
structure Settles (R : Ty → Ty → Prop) (obligations : List Obligation) (P : Prop) : Prop where
  holds : (∀ o ∈ obligations, o.Met R) → P
  fails : ∀ o ∈ obligations, o.Refuted R → ¬ P

section Lists

variable {R : Ty → Ty → Prop}

theorem settles_nil {P : Prop} (h : P) : Settles R [] P :=
  ⟨fun _ => h, by simp⟩

theorem settles_fault (fault : Fault) (P : Prop) : Settles R [.fault fault] P :=
  ⟨by simp [Obligation.Met], by simp [Obligation.Refuted]⟩

theorem settles_unmet {P : Prop} (path : Path) (reason : Reason) (s t : Ty) (h : ¬ P) :
    Settles R [.unmet path reason s t] P :=
  ⟨by simp [Obligation.Met], fun _ _ _ => h⟩

theorem settles_fits (path : Path) (s t : Ty) : Settles R [.fits path s t] (R s t) :=
  ⟨by simp [Obligation.Met], by simp [Obligation.Refuted]⟩

theorem Settles.append {l l' : List Obligation} {P Q : Prop} (h : Settles R l P)
    (h' : Settles R l' Q) : Settles R (l ++ l') (P ∧ Q) where
  holds hmet :=
    ⟨h.holds fun o ho => hmet o (List.mem_append_left l' ho),
      h'.holds fun o ho => hmet o (List.mem_append_right l ho)⟩
  fails o ho hrefuted hPQ := by
    rcases List.mem_append.mp ho with ho | ho
    · exact h.fails o ho hrefuted hPQ.1
    · exact h'.fails o ho hrefuted hPQ.2

theorem Settles.flatMap {α : Type} {l : List α} {f : α → List Obligation} {P : α → Prop}
    (h : ∀ a ∈ l, Settles R (f a) (P a)) : Settles R (l.flatMap f) (∀ a ∈ l, P a) where
  holds hmet a ha := (h a ha).holds fun o ho => hmet o (List.mem_flatMap.mpr ⟨a, ha, ho⟩)
  fails o ho hrefuted hall := by
    obtain ⟨a, ha, ho⟩ := List.mem_flatMap.mp ho
    exact (h a ha).fails o ho hrefuted (hall a ha)

theorem Settles.congr {l : List Obligation} {P Q : Prop} (h : Settles R l P) (hPQ : P ↔ Q) :
    Settles R l Q :=
  ⟨fun hmet => hPQ.mp (h.holds hmet), fun o ho hrefuted hQ => h.fails o ho hrefuted (hPQ.mpr hQ)⟩

theorem settles_mutability (path : Path) (readonly readonly' : Bool) (s t : Ty) :
    Settles R (mutability path readonly readonly' s t) (readonly = true → readonly' = true) := by
  unfold mutability
  split
  · rename_i h
    apply settles_unmet
    simpa using h
  · rename_i h
    apply settles_nil
    simpa using h

theorem settles_presence (path : Path) (optional optional' : Bool) (s t : Ty) :
    Settles R (presence path optional optional' s t) (optional = true → optional' = true) := by
  unfold presence
  split
  · rename_i h
    apply settles_unmet
    simpa using h
  · rename_i h
    apply settles_nil
    simpa using h

theorem settles_valueFits (path : Path) (s t : Ty) (readonly readonly' : Bool) :
    Settles R (valueFits path s readonly t readonly') (ValueFits R s readonly t readonly') :=
  (settles_fits path s t).append (settles_mutability path readonly readonly' s t)

theorem settles_slotFits (path : Path) (s t : Slot Ty) :
    Settles R (slotFits path s t) (SlotFits R s t) :=
  (settles_fits path s.type t.type).append
    ((settles_presence path s.optional t.optional s.type t.type).append
      (settles_mutability path s.readonly t.readonly s.type t.type))

theorem settles_positionsFitElement (element : Ty) (readonly : Bool) (i : Nat)
    (elements : List (Slot Ty)) :
    Settles R (positionsFitElement element readonly i elements)
      (∀ s ∈ elements, ValueFits R s.type s.readonly element readonly) := by
  induction elements generalizing i with
  | nil => exact settles_nil (by simp)
  | cons s rest ih =>
      rw [positionsFitElement]
      refine ((settles_valueFits _ _ _ _ _).append (ih (i + 1))).congr ?_
      rw [List.forall_mem_cons]

theorem settles_positionsFit (i : Nat) (elements elements' : List (Slot Ty)) :
    Settles R (positionsFit i elements elements')
      (∀ p ∈ elements.zip elements', SlotFits R p.1 p.2) := by
  induction elements generalizing i elements' with
  | nil => exact settles_nil (by simp)
  | cons s rest ih =>
      cases elements' with
      | nil => exact settles_nil (by simp)
      | cons t rest' =>
          rw [positionsFit, List.zip_cons_cons]
          refine ((settles_slotFits _ s t).append (ih (i + 1) rest')).congr ?_
          rw [List.forall_mem_cons]

end Lists

section Objects

variable {policy : Policy} {R : Ty → Ty → Prop}

theorem settles_fieldFits (source : ObjectTy) (name : String) (t : Slot Ty) :
    Settles R (fieldFits policy source name t) (FieldFits policy R source name t) := by
  unfold fieldFits
  split
  · rename_i s hs
    refine (settles_slotFits _ s t).congr ⟨.declared hs, ?_⟩
    intro h
    cases h with
    | declared h fits =>
        rw [hs] at h
        exact Option.some.inj h ▸ fits
    | absent h => simp [hs] at h
    | supplied h => simp [hs] at h
  · rename_i hnone
    split
    · rename_i hoptional
      exact settles_nil (.absent hnone hoptional)
    · rename_i hrequired
      -- What is left is the index rule of the source: only it can supply the field.
      have hmissing : ∀ r, source.index = some r → policy.indexSupplies = true →
          r.key.HasName name → FieldFits policy R source name t →
          ValueFits R r.value r.readonly t.type t.readonly := by
        intro r hr _ _ h
        cases h with
        | declared h => simp [hnone] at h
        | absent _ optional => exact absurd optional hrequired
        | supplied _ hindex _ _ fits =>
            rw [hr] at hindex
            exact Option.some.inj hindex ▸ fits
      have hsupplied : FieldFits policy R source name t →
          ∃ r, source.index = some r ∧ policy.indexSupplies = true ∧ r.key.HasName name := by
        intro h
        cases h with
        | declared h => simp [hnone] at h
        | absent _ optional => exact absurd optional hrequired
        | supplied _ hindex allowed hname _ => exact ⟨_, hindex, allowed, hname⟩
      split
      · rename_i hindex
        apply settles_unmet
        intro h
        obtain ⟨r, hr, -⟩ := hsupplied h
        simp [hindex] at hr
      · rename_i r hindex
        split
        · rename_i hallowed
          split
          · exact settles_fault _ _
          · rename_i hdomain
            have hname := (Ty.inDomain_eq_ok hdomain).mp rfl
            exact (settles_valueFits _ _ _ _ _).congr
              ⟨.supplied hnone hindex hallowed hname, hmissing r hindex hallowed hname⟩
          · rename_i hdomain
            apply settles_unmet
            intro h
            obtain ⟨r', hr', -, hname⟩ := hsupplied h
            rw [hindex] at hr'
            cases hr'
            simpa using (Ty.inDomain_eq_ok hdomain).mpr hname
        · rename_i hforbidden
          apply settles_unmet
          intro h
          obtain ⟨-, -, hallowed, -⟩ := hsupplied h
          exact hforbidden hallowed

theorem settles_extraFits (target : ObjectTy) (r' : IndexRule Ty) (name : String) (s : Slot Ty) :
    Settles R (extraFits target r' name s)
      (target.contains name = false → r'.key.HasName name →
        ValueFits R s.type s.readonly r'.value r'.readonly) := by
  unfold extraFits
  split
  · rename_i hcontains
    apply settles_nil
    simp [hcontains]
  · rename_i hcontains
    split
    · exact settles_fault _ _
    · rename_i hdomain
      apply settles_nil
      intro _ hname
      simpa using (Ty.inDomain_eq_ok hdomain).mpr hname
    · rename_i hdomain
      have hname := (Ty.inDomain_eq_ok hdomain).mp rfl
      refine (settles_valueFits _ _ _ _ _).congr ⟨fun h _ _ => h, fun h => h ?_ hname⟩
      simpa using hcontains

theorem settles_indexFits (r r' : IndexRule Ty) :
    Settles R (indexFits r r')
      (r.key.Covers r'.key ∧ ValueFits R r.value r.readonly r'.value r'.readonly) := by
  unfold indexFits
  split
  · exact settles_fault _ _
  · split
    · exact settles_fault _ _
    · rename_i hcovers
      apply settles_unmet
      intro h
      simpa using (Ty.covers_eq_ok hcovers).mpr h.1
    · rename_i hcovers
      have hc := (Ty.covers_eq_ok hcovers).mp rfl
      exact (settles_valueFits _ _ _ _ _).congr ⟨fun h => ⟨hc, h⟩, And.right⟩

end Objects

/-- A requirement is met where all its obligations are, or where some member fits. -/
def Requirement.Met (R : Ty → Ty → Prop) (source : Ty) : Requirement → Prop
  | .all obligations => ∀ o ∈ obligations, o.Met R
  | .someMember members => ∃ m ∈ members, R source m

def Requirement.Refuted (R : Ty → Ty → Prop) (source : Ty) : Requirement → Prop
  | .all obligations => ∃ o ∈ obligations, o.Refuted R
  | .someMember members => ∀ m ∈ members, ¬ R source m

/-- A requirement from which a statement can be told true or false. -/
structure Requirement.Settles (R : Ty → Ty → Prop) (source : Ty) (requirement : Requirement)
    (P : Prop) : Prop where
  holds : requirement.Met R source → P
  fails : requirement.Refuted R source → ¬ P

section Requirements

variable {policy : Policy} {R : Ty → Ty → Prop} {source : Ty} {P Q : Prop}

theorem Settles.all {l : List Obligation} (h : Settles R l P) :
    (Requirement.all l).Settles R source P where
  holds := h.holds
  fails hrefuted := by
    obtain ⟨o, ho, hrefuted⟩ := hrefuted
    exact h.fails o ho hrefuted

theorem Requirement.Settles.congr {requirement : Requirement} (h : requirement.Settles R source P)
    (hPQ : P ↔ Q) : requirement.Settles R source Q :=
  ⟨fun hmet => hPQ.mp (h.holds hmet), fun hrefuted hQ => h.fails hrefuted (hPQ.mpr hQ)⟩

theorem mismatch_settles {reason : Reason} {s t : Ty} (h : ¬ P) :
    (mismatch reason s t).Settles R source P :=
  (settles_unmet [] reason s t h).all

theorem objectRule_settles (s t : ObjectTy) :
    (objectRule policy s t).Settles R source (ObjectFits policy R s t) := by
  unfold objectRule
  have hfields : Settles R (t.fields.flatMap fun f => fieldFits policy s f.1 f.2)
      (∀ f ∈ t.fields, FieldFits policy R s f.1 f.2) :=
    Settles.flatMap fun f _ => settles_fieldFits s f.1 f.2
  cases ht : t.index with
  | none =>
      refine ((hfields.append (settles_nil trivial)).congr ⟨?_, ?_⟩).all
      · rintro ⟨h, -⟩
        exact ⟨h, by simp [ht], by simp [ht]⟩
      · intro h
        exact ⟨h.fields, trivial⟩
  | some r' =>
      have hextras : Settles R (s.fields.flatMap fun f => extraFits t r' f.1 f.2)
          (∀ f ∈ s.fields, t.contains f.1 = false → r'.key.HasName f.1 →
            ValueFits R f.2.type f.2.readonly r'.value r'.readonly) :=
        Settles.flatMap fun f _ => settles_extraFits t r' f.1 f.2
      cases hs : s.index with
      | none =>
          refine ((hfields.append (hextras.append (settles_nil trivial))).congr ⟨?_, ?_⟩).all
          · rintro ⟨h, h', -⟩
            refine ⟨h, fun r hr => ?_, by simp [hs]⟩
            rw [ht] at hr
            exact Option.some.inj hr ▸ h'
          · intro h
            exact ⟨h.fields, h.extras r' ht, trivial⟩
      | some r =>
          refine ((hfields.append (hextras.append (settles_indexFits r r'))).congr ⟨?_, ?_⟩).all
          · rintro ⟨h, h', h''⟩
            refine ⟨h, fun q hq => ?_, fun q hq q' hq' => ?_⟩
            · rw [ht] at hq
              exact Option.some.inj hq ▸ h'
            · rw [ht] at hq
              rw [hs] at hq'
              cases hq
              cases hq'
              exact h''
          · intro h
            exact ⟨h.fields, h.extras r' ht, h.index r' ht r hs⟩

theorem kindRule_settles (s t : Ty) :
    (kindRule policy s t).Settles R s (KindFits policy R s t) := by
  unfold kindRule
  split
  case h_1 members =>
    have hmembers : Settles R (members.map fun m => .fits [] m t) (∀ m ∈ members, R m t) := by
      rw [List.map_eq_flatMap]
      exact Settles.flatMap fun m _ => settles_fits [] m t
    refine (hmembers.congr ⟨.unionSource, ?_⟩).all
    intro h
    cases h with
    | unionSource h => exact h
    | unionTarget hs => exact absurd rfl (hs members)
  case h_2 members hs =>
    constructor
    · rintro ⟨m, hm, h⟩
      exact .unionTarget hs hm h
    · intro hrefuted h
      cases h with
      | unionSource => exact hs _ rfl
      | unionTarget _ hm h => exact hrefuted _ hm h
  case h_3 l ht =>
    split
    · rename_i hwiden
      simp only [Bool.and_eq_true] at hwiden
      obtain ⟨hpolicy, hbeq⟩ := hwiden
      have hbase : t = Ty.base l := by
        cases Ty.alike_of_beq hbeq
        rfl
      exact (settles_nil (hbase ▸ .widening hpolicy)).all
    · rename_i hwiden
      apply mismatch_settles
      intro h
      cases h with
      | unionTarget => exact ht _ rfl
      | widening hpolicy =>
          apply hwiden
          simp only [Bool.and_eq_true]
          exact ⟨hpolicy, (Ty.Alike.primitive _).beq⟩
  case h_4 element readonly element' readonly' =>
    refine (((settles_fits _ _ _).append (settles_mutability _ _ _ _ _)).congr ⟨.array, ?_⟩).all
    intro h
    cases h with
    | array h => exact h
  case h_5 elements element' readonly' =>
    refine ((settles_positionsFitElement element' readonly' 0 elements).congr
      ⟨.tupleArray, ?_⟩).all
    intro h
    cases h with
    | tupleArray h => exact h
  case h_6 elements elements' =>
    unfold tupleRule
    split
    · rename_i hlength
      refine ((settles_positionsFit 0 elements elements').congr
        ⟨.tuple hlength.1 hlength.2, ?_⟩).all
      intro h
      cases h with
      | tuple _ _ h => exact h
    · rename_i hlength
      apply mismatch_settles
      intro h
      cases h with
      | tuple least most _ => exact hlength ⟨least, most⟩
  case h_8 fields index fields' index' =>
    refine (objectRule_settles _ _).congr ⟨.object, ?_⟩
    intro h
    cases h with
    | object h => exact h
  case h_15 => exact (settles_fault _ _).all
  all_goals
    apply mismatch_settles
    intro h
    cases h <;> simp_all

theorem isPrimitive_iff {name : String} {t : Ty} :
    isPrimitive name t = true ↔ t = .primitive name := by
  cases t <;> simp [isPrimitive]

theorem structuralRule_settles (s t : Ty) :
    (structuralRule policy s t).Settles R s (FitsAlways s t ∨
      t ≠ .primitive "never" ∧ s ≠ .primitive "unknown" ∧ KindFits policy R s t) := by
  unfold structuralRule
  have halwaysIff : (isPrimitive "any" t || isPrimitive "unknown" t || isPrimitive "any" s ||
      isPrimitive "never" s) = true ↔ FitsAlways s t := by
    simp only [Bool.or_eq_true, isPrimitive_iff, FitsAlways, or_assoc]
  split
  · rename_i halways
    exact (settles_nil (Or.inl (halwaysIff.mp halways))).all
  · rename_i halways
    rw [halwaysIff] at halways
    split
    · rename_i hbottom
      rw [Bool.or_eq_true, isPrimitive_iff, isPrimitive_iff] at hbottom
      apply mismatch_settles
      rintro (h | ⟨hne, hne', -⟩)
      · exact halways h
      · exact hbottom.elim hne hne'
    · rename_i hbottom
      rw [Bool.or_eq_true, isPrimitive_iff, isPrimitive_iff, not_or] at hbottom
      refine (kindRule_settles s t).congr ⟨fun h => Or.inr ⟨hbottom.1, hbottom.2, h⟩, ?_⟩
      rintro (h | ⟨-, -, h⟩)
      · exact absurd h halways
      · exact h

theorem rule_settles (s t : Ty) : (rule policy s t).Settles R s (Fits policy R s t) := by
  unfold rule
  split
  · rename_i hbeq
    exact (settles_nil (.equal hbeq)).all
  · rename_i hbeq
    refine (structuralRule_settles s t).congr ⟨?_, fun h => ?_⟩
    · rintro (h | ⟨hnever, hunknown, h⟩)
      · exact .always h
      · exact .kind hnever hunknown h
    · cases h with
      | equal h => exact absurd h hbeq
      | always h => exact Or.inl h
      | kind hnever hunknown h => exact Or.inr ⟨hnever, hunknown, h⟩

end Requirements

end StructuralTypes.Assignability
