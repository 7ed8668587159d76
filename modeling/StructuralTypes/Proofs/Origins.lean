import StructuralTypes.Proofs.Obligations

namespace StructuralTypes.Assignability

/-- Slots that one step leads to in two types at once. -/
inductive SlotsAt : Ty → Ty → Step → Slot Ty → Slot Ty → Prop
  | field {source target : ObjectTy} {name : String} {s t : Slot Ty}
      (hs : source.get? name = some s) (ht : (name, t) ∈ target.fields) :
      SlotsAt source.toTy target.toTy (.field name) s t
  | position {elements elements' : List (Slot Ty)} {i : Nat} {s t : Slot Ty}
      (hs : elements[i]? = some s) (ht : elements'[i]? = some t) :
      SlotsAt (.tuple elements) (.tuple elements') (.position i) s t

/-- Types, each behind a readonly flag, that one step leads to in two types at once. -/
inductive ValuesAt (policy : Policy) : Ty → Ty → Step → Ty → Bool → Ty → Bool → Prop
  | slots {a b : Ty} {step : Step} {s t : Slot Ty} (h : SlotsAt a b step s t) :
      ValuesAt policy a b step s.type s.readonly t.type t.readonly
  | supplied {source target : ObjectTy} {name : String} {r : IndexRule Ty} {t : Slot Ty}
      (ht : (name, t) ∈ target.fields) (required : t.optional = false)
      (hs : source.get? name = none) (hr : source.index = some r)
      (allowed : policy.indexSupplies = true) (hname : r.key.HasName name) :
      ValuesAt policy source.toTy target.toTy (.field name) r.value r.readonly t.type t.readonly
  | extra {source target : ObjectTy} {name : String} {s : Slot Ty} {r' : IndexRule Ty}
      (hs : (name, s) ∈ source.fields) (ht : target.contains name = false)
      (hr' : target.index = some r') (hname : r'.key.HasName name) :
      ValuesAt policy source.toTy target.toTy (.field name) s.type s.readonly r'.value r'.readonly
  | element {elements : List (Slot Ty)} {i : Nat} {s : Slot Ty} {element' : Ty} {readonly' : Bool}
      (hs : elements[i]? = some s) :
      ValuesAt policy (.tuple elements) (.array element' readonly') (.position i)
        s.type s.readonly element' readonly'
  | index {source target : ObjectTy} {r r' : IndexRule Ty} {domain : String}
      (hr : source.index = some r) (hr' : target.index = some r')
      (hdomain : r'.key.renderDomain = .ok domain) :
      ValuesAt policy source.toTy target.toTy (.index domain)
        r.value r.readonly r'.value r'.readonly

/-- The ways one level down into two types at once, each with the path it adds. -/
inductive Leads (policy : Policy) : Ty → Ty → Path → Ty → Ty → Prop
  | member {m t : Ty} {members : List Ty} (hm : m ∈ members) :
      Leads policy (.union members) t [] m t
  | element (element element' : Ty) (readonly readonly' : Bool) :
      Leads policy (.array element readonly) (.array element' readonly') [.element] element element'
  | values {a b s t : Ty} {step : Step} {readonly readonly' : Bool}
      (h : ValuesAt policy a b step s readonly t readonly') : Leads policy a b [step] s t

/-- Kinds of types that are compared part by part. -/
def comparable : Ty → Ty → Bool
  | .union _, _ => true
  | _, .union _ => true
  | .array _ _, .array _ _ => true
  | .tuple _, .array _ _ => true
  | .tuple _, .tuple _ => true
  | .array _ _, .tuple _ => true
  | .object _ _, .object _ _ => true
  | _, _ => false

/-- Failures that are plain from the outermost level of two types: the path from there, the reason
and the two types that do not line up. -/
inductive Failure (policy : Policy) : Ty → Ty → Path → Reason → Ty → Ty → Prop
  | readonly {a b s t : Ty} {step : Step} (h : ValuesAt policy a b step s true t false) :
      Failure policy a b [step] .readonlyViolation s t
  | readonlyArray (element element' : Ty) :
      Failure policy (.array element true) (.array element' false) [] .readonlyViolation
        (.array element true) (.array element' false)
  | optional {a b : Ty} {step : Step} {s t : Slot Ty} (h : SlotsAt a b step s t)
      (hs : s.optional = true) (ht : t.optional = false) :
      Failure policy a b [step] .optionalityMismatch s.type t.type
  | missing {source target : ObjectTy} {name : String} {t : Slot Ty}
      (ht : (name, t) ∈ target.fields) (required : t.optional = false)
      (hs : source.get? name = none)
      (hindex : ∀ r, source.index = some r → policy.indexSupplies = true →
        ¬ r.key.HasName name) :
      Failure policy source.toTy target.toTy [.field name] .missingField source.toTy t.type
  | key {source target : ObjectTy} {r r' : IndexRule Ty} {domain : String}
      (hr : source.index = some r) (hr' : target.index = some r')
      (hdomain : r'.key.renderDomain = .ok domain) (hcovers : ¬ r.key.Covers r'.key) :
      Failure policy source.toTy target.toTy [.index domain] .keyMismatch r.key r'.key
  | arrayLength (element : Ty) (readonly : Bool) (elements' : List (Slot Ty)) :
      Failure policy (.array element readonly) (.tuple elements') [] .lengthMismatch
        (.array element readonly) (.tuple elements')
  | length {elements elements' : List (Slot Ty)}
      (h : ¬ (leastLength policy elements' ≤ elements.length ∧
        elements.length ≤ elements'.length)) :
      Failure policy (.tuple elements) (.tuple elements') [] .lengthMismatch
        (.tuple elements) (.tuple elements')
  | extreme {s t : Ty} (hequal : (s == t) = false) (halways : ¬ FitsAlways s t)
      (h : t = .primitive "never" ∨ s = .primitive "unknown") :
      Failure policy s t [] .typeMismatch s t
  | kind {s t : Ty} (hequal : (s == t) = false) (halways : ¬ FitsAlways s t)
      (hkind : comparable s t = false)
      (hwiden : ∀ l, s = .literal l → policy.widenLiterals = true → (t == Ty.base l) = false) :
      Failure policy s t [] .typeMismatch s t

/-- The obligations that a source and a target can give rise to. -/
inductive Arises (policy : Policy) : Ty → Ty → Obligation → Prop
  | fits {a b s t : Ty} {path : Path} (h : Leads policy a b path s t) :
      Arises policy a b (.fits path s t)
  | unmet {a b s t : Ty} {path : Path} {reason : Reason} (h : Failure policy a b path reason s t) :
      Arises policy a b (.unmet path reason s t)
  | sourceKeyFault {source target : ObjectTy} {r : IndexRule Ty} {name : String} {fault : Fault}
      (hr : source.index = some r) (h : r.key.inDomain name = .error fault) :
      Arises policy source.toTy target.toTy (.fault fault)
  | targetKeyFault {source target : ObjectTy} {r' : IndexRule Ty} {name : String} {fault : Fault}
      (hr' : target.index = some r') (h : r'.key.inDomain name = .error fault) :
      Arises policy source.toTy target.toTy (.fault fault)
  | domainFault {source target : ObjectTy} {r' : IndexRule Ty} {fault : Fault}
      (hr' : target.index = some r') (h : r'.key.renderDomain = .error fault) :
      Arises policy source.toTy target.toTy (.fault fault)
  | coverFault {source target : ObjectTy} {r r' : IndexRule Ty} {fault : Fault}
      (hr : source.index = some r) (hr' : target.index = some r')
      (h : r.key.covers r'.key = .error fault) :
      Arises policy source.toTy target.toTy (.fault fault)
  | notType {s t : Ty} (h : t.isNamed = true ∨ t.foreign? ≠ none ∨ ∃ entries, t = .mapped entries) :
      Arises policy s t (.fault (.notType t.kindName))

theorem Arises.leads {policy : Policy} {a b s t : Ty} {path : Path}
    (h : Arises policy a b (.fits path s t)) : Leads policy a b path s t := by
  cases h with
  | fits h => exact h

theorem Arises.failure {policy : Policy} {a b s t : Ty} {path : Path} {reason : Reason}
    (h : Arises policy a b (.unmet path reason s t)) : Failure policy a b path reason s t := by
  cases h with
  | unmet h => exact h

section Places

variable {policy : Policy} {a b : Ty}

theorem mutability_arises {s t : Ty} {step : Step} {readonly readonly' : Bool}
    (h : ValuesAt policy a b step s readonly t readonly') :
    ∀ o ∈ mutability [step] readonly readonly' s t, Arises policy a b o := by
  intro o ho
  unfold mutability at ho
  split at ho
  · rename_i hflags
    simp only [Bool.and_eq_true, Bool.not_eq_true'] at hflags
    obtain ⟨rfl, rfl⟩ := hflags
    rw [List.mem_singleton.mp ho]
    exact .unmet (.readonly h)
  · simp at ho

theorem valueFits_arises {s t : Ty} {step : Step} {readonly readonly' : Bool}
    (h : ValuesAt policy a b step s readonly t readonly') :
    ∀ o ∈ valueFits [step] s readonly t readonly', Arises policy a b o := by
  intro o ho
  rcases List.mem_cons.mp ho with rfl | ho
  · exact .fits (.values h)
  · exact mutability_arises h o ho

theorem slotFits_arises {s t : Slot Ty} {step : Step} (h : SlotsAt a b step s t) :
    ∀ o ∈ slotFits [step] s t, Arises policy a b o := by
  intro o ho
  rcases List.mem_cons.mp ho with rfl | ho
  · exact .fits (.values (.slots h))
  · rcases List.mem_append.mp ho with ho | ho
    · unfold presence at ho
      split at ho
      · rename_i hflags
        simp only [Bool.and_eq_true, Bool.not_eq_true'] at hflags
        rw [List.mem_singleton.mp ho]
        exact .unmet (.optional h hflags.1 hflags.2)
      · simp at ho
    · exact mutability_arises (.slots h) o ho

end Places

section Rules

variable {policy : Policy}

theorem positionsFitElement_arises {elements rest : List (Slot Ty)} {element' : Ty}
    {readonly' : Bool} {i : Nat} (hrest : rest = elements.drop i) :
    ∀ o ∈ positionsFitElement element' readonly' i rest,
      Arises policy (.tuple elements) (.array element' readonly') o := by
  induction rest generalizing i with
  | nil => simp [positionsFitElement]
  | cons s rest ih =>
      intro o ho
      have hget : elements[i]? = some s := by
        rw [← List.head?_drop, ← hrest, List.head?_cons]
      have hdrop : rest = elements.drop (i + 1) := by
        rw [← List.tail_drop, ← hrest, List.tail_cons]
      rcases List.mem_append.mp ho with ho | ho
      · exact valueFits_arises (.element hget) o ho
      · exact ih hdrop o ho

theorem positionsFit_arises {elements elements' rest rest' : List (Slot Ty)} {i : Nat}
    (hrest : rest = elements.drop i) (hrest' : rest' = elements'.drop i) :
    ∀ o ∈ positionsFit i rest rest', Arises policy (.tuple elements) (.tuple elements') o := by
  induction rest generalizing i rest' with
  | nil => simp [positionsFit]
  | cons s rest ih =>
      cases rest' with
      | nil => simp [positionsFit]
      | cons t rest' =>
          intro o ho
          have hget : elements[i]? = some s := by
            rw [← List.head?_drop, ← hrest, List.head?_cons]
          have hget' : elements'[i]? = some t := by
            rw [← List.head?_drop, ← hrest', List.head?_cons]
          rcases List.mem_append.mp ho with ho | ho
          · exact slotFits_arises (.position hget hget') o ho
          · apply ih _ _ o ho
            · rw [← List.tail_drop, ← hrest, List.tail_cons]
            · rw [← List.tail_drop, ← hrest', List.tail_cons]

theorem fieldFits_arises {source target : ObjectTy} {name : String} {t : Slot Ty}
    (ht : (name, t) ∈ target.fields) :
    ∀ o ∈ fieldFits policy source name t, Arises policy source.toTy target.toTy o := by
  intro o ho
  unfold fieldFits at ho
  split at ho
  · rename_i s hs
    exact slotFits_arises (.field hs ht) o ho
  · rename_i hnone
    split at ho
    · simp at ho
    · rename_i hrequired
      rw [Bool.not_eq_true] at hrequired
      split at ho
      · rename_i hindex
        rw [List.mem_singleton.mp ho]
        exact .unmet (.missing ht hrequired hnone (by simp [hindex]))
      · rename_i r hindex
        split at ho
        · rename_i hallowed
          split at ho
          · rename_i hfault
            rw [List.mem_singleton.mp ho]
            exact .sourceKeyFault hindex hfault
          · rename_i hdomain
            exact valueFits_arises (.supplied ht hrequired hnone hindex hallowed
              ((Ty.inDomain_eq_ok hdomain).mp rfl)) o ho
          · rename_i hdomain
            rw [List.mem_singleton.mp ho]
            refine .unmet (.missing ht hrequired hnone fun r' hr' _ hname => ?_)
            rw [hindex] at hr'
            cases hr'
            simpa using (Ty.inDomain_eq_ok hdomain).mpr hname
        · rename_i hforbidden
          rw [List.mem_singleton.mp ho]
          exact .unmet
            (.missing ht hrequired hnone fun _ _ hallowed => absurd hallowed hforbidden)

theorem extraFits_arises {source target : ObjectTy} {r' : IndexRule Ty} {name : String}
    {s : Slot Ty} (hs : (name, s) ∈ source.fields) (hr' : target.index = some r') :
    ∀ o ∈ extraFits target r' name s, Arises policy source.toTy target.toTy o := by
  intro o ho
  unfold extraFits at ho
  split at ho
  · simp at ho
  · rename_i hcontains
    rw [Bool.not_eq_true] at hcontains
    split at ho
    · rename_i hfault
      rw [List.mem_singleton.mp ho]
      exact .targetKeyFault hr' hfault
    · simp at ho
    · rename_i hdomain
      exact valueFits_arises
        (.extra hs hcontains hr' ((Ty.inDomain_eq_ok hdomain).mp rfl)) o ho

theorem indexFits_arises {source target : ObjectTy} {r r' : IndexRule Ty}
    (hr : source.index = some r) (hr' : target.index = some r') :
    ∀ o ∈ indexFits r r', Arises policy source.toTy target.toTy o := by
  intro o ho
  unfold indexFits at ho
  split at ho
  · rename_i hfault
    rw [List.mem_singleton.mp ho]
    exact .domainFault hr' hfault
  · rename_i domain hdomain
    split at ho
    · rename_i hfault
      rw [List.mem_singleton.mp ho]
      exact .coverFault hr hr' hfault
    · rename_i hcovers
      rw [List.mem_singleton.mp ho]
      refine .unmet (.key hr hr' hdomain fun h => ?_)
      simpa using (Ty.covers_eq_ok hcovers).mpr h
    · exact valueFits_arises (.index hr hr' hdomain) o ho

theorem objectRule_arises {source target : ObjectTy} {obligations : List Obligation}
    (h : objectRule policy source target = .all obligations) :
    ∀ o ∈ obligations, Arises policy source.toTy target.toTy o := by
  intro o ho
  unfold objectRule at h
  rw [Requirement.all.injEq] at h
  rw [← h, List.mem_append, List.mem_flatMap] at ho
  rcases ho with ⟨f, hf, ho⟩ | ho
  · exact fieldFits_arises hf o ho
  · split at ho
    · simp at ho
    · rename_i r' hr'
      rw [List.mem_append, List.mem_flatMap] at ho
      rcases ho with ⟨f, hf, ho⟩ | ho
      · exact extraFits_arises hf hr' o ho
      · split at ho
        · simp at ho
        · rename_i r hr
          exact indexFits_arises hr hr' o ho

theorem mismatch_arises {reason : Reason} {s t : Ty} {obligations : List Obligation}
    (h : mismatch reason s t = .all obligations) (hfailure : Failure policy s t [] reason s t) :
    ∀ o ∈ obligations, Arises policy s t o := by
  intro o ho
  unfold mismatch at h
  rw [Requirement.all.injEq] at h
  rw [← h, List.mem_singleton] at ho
  rw [ho]
  exact .unmet hfailure

theorem isAtom_eq_of_beq {s t : Ty} (h : s == t) : isAtom s = isAtom t := by
  cases Ty.alike_of_beq h <;> rfl

theorem kindRule_arises {s t : Ty} {obligations : List Obligation}
    (hequal : isAtom s = true → (s == t) = false) (halways : ¬ FitsAlways s t)
    (h : kindRule policy s t = .all obligations) : ∀ o ∈ obligations, Arises policy s t o := by
  unfold kindRule at h
  split at h
  case h_1 members =>
    intro o ho
    rw [Requirement.all.injEq] at h
    rw [← h, List.mem_map] at ho
    obtain ⟨m, hm, rfl⟩ := ho
    exact .fits (.member hm)
  case h_2 => cases h
  case h_3 l hunion =>
    split at h
    · cases h
      simp
    · rename_i hwiden
      refine mismatch_arises h (.kind (hequal rfl) halways ?_ ?_)
      · unfold comparable
        split <;> simp_all
      · intro l' hl' hallowed
        cases hl'
        simpa [hallowed] using hwiden
  case h_4 element readonly element' readonly' =>
    intro o ho
    rw [Requirement.all.injEq] at h
    rw [← h, List.mem_cons] at ho
    rcases ho with rfl | ho
    · exact .fits (.element element element' readonly readonly')
    · unfold mutability at ho
      split at ho
      · rename_i hflags
        simp only [Bool.and_eq_true, Bool.not_eq_true'] at hflags
        obtain ⟨rfl, rfl⟩ := hflags
        rw [List.mem_singleton.mp ho]
        exact .unmet (.readonlyArray element element')
      · simp at ho
  case h_5 elements element' readonly' =>
    cases h
    exact positionsFitElement_arises (by simp)
  case h_6 elements elements' =>
    unfold tupleRule at h
    split at h
    · cases h
      exact positionsFit_arises (by simp) (by simp)
    · rename_i hlength
      exact mismatch_arises h (.length hlength)
  case h_7 element readonly elements' =>
    exact mismatch_arises h (.arrayLength element readonly elements')
  case h_8 => exact objectRule_arises h
  case h_15 hunion _ _ _ _ _ =>
    intro o ho
    cases h
    rw [List.mem_singleton.mp ho]
    apply Arises.notType
    cases t <;> simp_all [Ty.isNamed, Ty.foreign?]
  all_goals
    refine mismatch_arises h (.kind ?_ halways ?_ ?_)
    · -- equal types of the other kinds are compared part by part
      rw [← Bool.not_eq_true]
      intro hbeq
      cases Ty.alike_of_beq hbeq
      simp_all [isAtom]
    · unfold comparable
      split <;> simp_all
    · intro l hl
      simp_all

theorem structuralRule_arises {s t : Ty} {obligations : List Obligation}
    (hequal : isAtom s = true → (s == t) = false)
    (h : structuralRule policy s t = .all obligations) :
    ∀ o ∈ obligations, Arises policy s t o := by
  unfold structuralRule at h
  split at h
  · cases h
    simp
  · rename_i hnot
    have halways : ¬ FitsAlways s t := by
      simpa [FitsAlways, isPrimitive_iff, or_assoc] using hnot
    split at h
    · rename_i hextreme
      have hextreme' : t = .primitive "never" ∨ s = .primitive "unknown" := by
        simpa [isPrimitive_iff] using hextreme
      refine mismatch_arises h (.extreme ?_ halways hextreme')
      rw [← Bool.not_eq_true]
      intro hbeq
      have hatom : isAtom s = true := by
        rcases hextreme' with rfl | rfl
        · rw [isAtom_eq_of_beq hbeq, isAtom]
        · rfl
      rw [hequal hatom] at hbeq
      cases hbeq
    · exact kindRule_arises hequal halways h

theorem structuralRule_someMember {s t : Ty} {members : List Ty}
    (h : structuralRule policy s t = .someMember members) : t = .union members := by
  unfold structuralRule at h
  split at h
  · cases h
  · split at h
    · cases h
    · unfold kindRule at h
      split at h
      case h_2 => rw [Requirement.someMember.inj h]
      case h_3 => split at h <;> cases h
      case h_6 =>
        unfold tupleRule at h
        split at h <;> cases h
      all_goals cases h

theorem rule_arises {s t : Ty} {obligations : List Obligation}
    (h : rule policy s t = .all obligations) : ∀ o ∈ obligations, Arises policy s t o := by
  unfold rule at h
  split at h
  · cases h
    simp
  · rename_i hequal
    rw [Bool.not_eq_true] at hequal
    exact structuralRule_arises (fun _ => hequal) h

theorem rule_someMember {s t : Ty} {members : List Ty} (h : rule policy s t = .someMember members) :
    t = .union members := by
  unfold rule at h
  split at h
  · cases h
  · exact structuralRule_someMember h

end Rules

theorem SlotsAt.mem_parts {a b : Ty} {step : Step} {s t : Slot Ty} (h : SlotsAt a b step s t) :
    s.type ∈ a.parts ∧ t.type ∈ b.parts := by
  rcases h with ⟨hs, ht⟩ | ⟨hs, ht⟩
  · exact ⟨Ty.mem_parts_of_mem_fields (Assoc.mem_of_lookup hs), Ty.mem_parts_of_mem_fields ht⟩
  · exact ⟨List.mem_map_of_mem (List.mem_of_getElem? hs),
      List.mem_map_of_mem (List.mem_of_getElem? ht)⟩

theorem key_mem_parts {o : ObjectTy} {r : IndexRule Ty} (h : o.index = some r) :
    r.key ∈ o.toTy.parts := by
  rw [ObjectTy.toTy, h]
  exact Ty.key_mem_parts

theorem value_mem_parts {o : ObjectTy} {r : IndexRule Ty} (h : o.index = some r) :
    r.value ∈ o.toTy.parts := by
  rw [ObjectTy.toTy, h]
  exact Ty.value_mem_parts

theorem ValuesAt.mem_parts {policy : Policy} {a b s t : Ty} {step : Step}
    {readonly readonly' : Bool} (h : ValuesAt policy a b step s readonly t readonly') :
    s ∈ a.parts ∧ t ∈ b.parts := by
  cases h with
  | slots h => exact h.mem_parts
  | supplied ht _ _ hr => exact ⟨value_mem_parts hr, Ty.mem_parts_of_mem_fields ht⟩
  | extra hs _ hr' => exact ⟨Ty.mem_parts_of_mem_fields hs, value_mem_parts hr'⟩
  | element hs =>
      exact ⟨List.mem_map_of_mem (List.mem_of_getElem? hs), by simp [Ty.parts]⟩
  | index hr hr' => exact ⟨value_mem_parts hr, value_mem_parts hr'⟩

theorem Leads.mem_parts {policy : Policy} {a b s t : Ty} {path : Path}
    (h : Leads policy a b path s t) : s ∈ a.parts ∧ (t = b ∨ t ∈ b.parts) := by
  cases h with
  | member hm => exact ⟨hm, Or.inl rfl⟩
  | element => exact ⟨by simp [Ty.parts], Or.inr (by simp [Ty.parts])⟩
  | values h => exact ⟨h.mem_parts.1, Or.inr h.mem_parts.2⟩

/-- A requirement leads to judging a source against a target. -/
def Requirement.Asks (source : Ty) (a b : Ty) : Requirement → Prop
  | .all obligations => ∃ path, .fits path a b ∈ obligations
  | .someMember members => a = source ∧ b ∈ members

/-- Rules that ask only for what is inside the types at hand, and inside one of them properly. -/
def Inward (rules : Rules) : Prop :=
  ∀ s t a b, (rules s t).Asks s a b →
    (a ∈ s.parts ∧ (b = t ∨ b ∈ t.parts)) ∨ (a = s ∧ b ∈ t.parts)

theorem Inward.wellFormed {rules : Rules} (hrules : Inward rules) {s t a b : Ty}
    (hs : s.WellFormed) (ht : t.WellFormed) (h : (rules s t).Asks s a b) :
    a.WellFormed ∧ b.WellFormed := by
  rcases hrules s t a b h with ⟨ha, rfl | hb⟩ | ⟨rfl, hb⟩
  · exact ⟨hs.part ha, ht⟩
  · exact ⟨hs.part ha, ht.part hb⟩
  · exact ⟨hs, ht.part hb⟩

theorem not_asks_none {source a b : Ty} : ¬ Requirement.none.Asks source a b := by
  rintro ⟨path, hmem⟩
  cases hmem

theorem structuralRule_asks {policy : Policy} {s t a b : Ty}
    (hequal : isAtom s = true → (s == t) = false)
    (h : (structuralRule policy s t).Asks s a b) :
    (a ∈ s.parts ∧ (b = t ∨ b ∈ t.parts)) ∨ (a = s ∧ b ∈ t.parts) := by
  cases hrule : structuralRule policy s t with
  | all obligations =>
      rw [hrule] at h
      obtain ⟨path, hmem⟩ := h
      exact Or.inl (structuralRule_arises hequal hrule _ hmem).leads.mem_parts
  | someMember members =>
      rw [hrule] at h
      obtain ⟨rfl, hb⟩ := h
      rw [structuralRule_someMember hrule]
      exact Or.inr ⟨rfl, hb⟩

theorem inward_rule (policy : Policy) : Inward (rule policy) := by
  intro s t a b h
  unfold rule at h
  split at h
  · exact absurd h not_asks_none
  · rename_i hequal
    rw [Bool.not_eq_true] at hequal
    exact structuralRule_asks (fun _ => hequal) h

theorem wellFormed_of_asks {policy : Policy} {s t a b : Ty} (hs : s.WellFormed)
    (ht : t.WellFormed) (h : (rule policy s t).Asks s a b) : a.WellFormed ∧ b.WellFormed :=
  (inward_rule policy).wellFormed hs ht h

end StructuralTypes.Assignability
