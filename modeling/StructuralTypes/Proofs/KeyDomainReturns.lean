import StructuralTypes.Proofs.DomainInclusion

namespace StructuralTypes

/-- Every obstacle in a list has something before it where one may stop. -/
def Sheltered {α : Type} (Stop Obstacle : α → Prop) (l : List α) : Prop :=
  ∀ before a after, l = before ++ a :: after → Obstacle a → ∃ b ∈ before, Stop b

section ShortCircuit

variable {α β ε : Type} {test : α → Except ε Bool} {Stop Obstacle : α → Prop}

theorem sheltered_nil : Sheltered Stop Obstacle [] := by
  intro before a after h
  simp at h

theorem sheltered_cons {a : α} {rest : List α} :
    Sheltered Stop Obstacle (a :: rest) ↔
      ¬ Obstacle a ∧ (Stop a ∨ Sheltered Stop Obstacle rest) := by
  constructor
  · intro h
    refine ⟨fun ha => by simpa using h [] a rest rfl ha, ?_⟩
    by_cases hstop : Stop a
    · exact Or.inl hstop
    · refine Or.inr fun before b after hrest hb => ?_
      obtain ⟨c, hc, hc'⟩ := h (a :: before) b after (by simp [hrest]) hb
      rcases List.mem_cons.mp hc with rfl | hc
      · exact absurd hc' hstop
      · exact ⟨c, hc, hc'⟩
  · rintro ⟨ha, h⟩ before b after hsplit hb
    cases before with
    | nil =>
        obtain ⟨rfl, -⟩ := List.cons_eq_cons.mp hsplit
        exact absurd hb ha
    | cons a' before =>
        obtain ⟨rfl, hrest⟩ := List.cons_eq_cons.mp hsplit
        rcases h with hstop | h
        · exact ⟨a, List.mem_cons_self, hstop⟩
        · obtain ⟨c, hc, hc'⟩ := h before b after hrest hb
          exact ⟨c, List.mem_cons_of_mem a hc, hc'⟩

theorem sheltered_of_forall {l : List α} (h : ∀ a ∈ l, ¬ Obstacle a) :
    Sheltered Stop Obstacle l := by
  rintro before a after rfl ha
  exact absurd ha (h a (by simp))

/-- A search for a success returns exactly when each failure has a success before it. -/
theorem exists_anyM_iff {l : List α}
    (hfail : ∀ a ∈ l, (∃ e, test a = .error e) ↔ Obstacle a)
    (hok : ∀ a ∈ l, ∀ b, test a = .ok b → (b = true ↔ Stop a)) :
    (∃ b, l.anyM test = .ok b) ↔ Sheltered Stop Obstacle l := by
  induction l with
  | nil => exact ⟨fun _ => sheltered_nil, fun _ => ⟨false, rfl⟩⟩
  | cons a rest ih =>
      rw [sheltered_cons, ← hfail a List.mem_cons_self]
      cases ha : test a with
      | error e => simp [List.anyM, ha, bind, Except.bind]
      | ok c =>
          have hstop := hok a List.mem_cons_self c ha
          rw [← hstop]
          cases c with
          | true => simp [List.anyM, ha, bind, Except.bind, pure, Except.pure]
          | false =>
              have hrest := ih (fun b hb => hfail b (List.mem_cons_of_mem a hb))
                fun b hb => hok b (List.mem_cons_of_mem a hb)
              simpa [List.anyM, ha, bind, Except.bind] using hrest

theorem anyM_singleton (a : α) : [a].anyM test = test a := by
  cases ha : test a with
  | error e => simp [List.anyM, ha, bind, Except.bind]
  | ok c => cases c <;> simp [List.anyM, ha, bind, Except.bind, pure, Except.pure]

theorem anyM_congr {test' : α → Except ε Bool} {l : List α} (h : ∀ a ∈ l, test a = test' a) :
    l.anyM test = l.anyM test' := by
  induction l with
  | nil => rfl
  | cons a rest ih =>
      simp only [List.anyM, h a List.mem_cons_self,
        ih fun b hb => h b (List.mem_cons_of_mem a hb)]

theorem allM_eq_anyM (l : List α) :
    l.allM test = (l.anyM fun a => (test a).map (!·)).map (!·) := by
  induction l with
  | nil => rfl
  | cons a rest ih =>
      cases ha : test a with
      | error e => simp [List.allM, List.anyM, ha, bind, Except.bind, Except.map]
      | ok c =>
          cases c with
          | false =>
              simp [List.allM, List.anyM, ha, bind, Except.bind, Except.map, pure, Except.pure]
          | true => simpa [List.allM, List.anyM, ha, bind, Except.bind, Except.map] using ih

theorem exists_allM_iff {l : List α}
    (hfail : ∀ a ∈ l, (∃ e, test a = .error e) ↔ Obstacle a)
    (hok : ∀ a ∈ l, ∀ b, test a = .ok b → (b = true ↔ ¬ Stop a)) :
    (∃ b, l.allM test = .ok b) ↔ Sheltered Stop Obstacle l := by
  have hmap {x : Except ε Bool} : (∃ b, x.map (!·) = .ok b) ↔ ∃ b, x = .ok b := by
    cases x <;> simp [Except.map]
  rw [allM_eq_anyM, hmap]
  apply exists_anyM_iff
  · intro a ha
    rw [← hfail a ha]
    cases test a <;> simp [Except.map]
  · intro a ha b hb
    cases hc : test a with
    | error e => simp [hc, Except.map] at hb
    | ok c =>
        have hstop := hok a ha c hc
        simp only [hc, Except.map, Except.ok.injEq] at hb
        rw [← hb, Bool.not_eq_true', ← Bool.not_eq_true, hstop, not_not]

theorem allM_singleton (a : α) : [a].allM test = test a := by
  rw [allM_eq_anyM, anyM_singleton]
  cases test a <;> simp [Except.map]

theorem allM_congr {test' : α → Except ε Bool} {l : List α} (h : ∀ a ∈ l, test a = test' a) :
    l.allM test = l.allM test' := by
  rw [allM_eq_anyM, allM_eq_anyM, anyM_congr fun a ha => by rw [h a ha]]

theorem anyM_append (l l' : List α) :
    (l ++ l').anyM test = (do if ← l.anyM test then return true else l'.anyM test) := by
  induction l with
  | nil => rfl
  | cons a rest ih =>
      cases ha : test a with
      | error e => simp [List.anyM, ha, bind, Except.bind]
      | ok c =>
          cases c with
          | true => simp [List.anyM, ha, bind, Except.bind, pure, Except.pure]
          | false => simpa [List.anyM, ha, bind, Except.bind] using ih

theorem anyM_flatMap (f : β → List α) (l : List β) :
    (l.flatMap f).anyM test = l.anyM fun b => (f b).anyM test := by
  induction l with
  | nil => rfl
  | cons b rest ih =>
      rw [List.flatMap_cons, anyM_append, ih]
      cases hb : (f b).anyM test with
      | error e => simp [List.anyM, hb, bind, Except.bind]
      | ok c => cases c <;> simp [List.anyM, hb, bind, Except.bind]

theorem allM_flatMap (f : β → List α) (l : List β) :
    (l.flatMap f).allM test = l.allM fun b => (f b).allM test := by
  rw [allM_eq_anyM, anyM_flatMap, allM_eq_anyM]
  congr 2
  funext b
  rw [allM_eq_anyM]
  cases (f b).anyM fun a => (test a).map (!·) <;> simp [Except.map]

end ShortCircuit

namespace Ty

mutual

/-- The leaves of a key type, from left to right. -/
def leaves : Ty → List Ty
  | .union members => leavesOf members
  | t => [t]
termination_by structural t => t

def leavesOf : List Ty → List Ty
  | [] => []
  | t :: rest => leaves t ++ leavesOf rest
termination_by structural members => members

end

theorem leavesOf_eq (members : List Ty) : leavesOf members = members.flatMap leaves := by
  induction members with
  | nil => rfl
  | cons m rest ih => simp [leavesOf, ih]

theorem mem_leaves_iff {leaf key : Ty} : leaf ∈ key.leaves ↔ Leaf leaf key := by
  induction key using parts_induction with
  | step key ih =>
      cases key with
      | union members =>
          rw [leaves, leavesOf_eq, List.mem_flatMap, leaf_union_iff]
          constructor
          · rintro ⟨m, hm, h⟩
            exact ⟨m, hm, (ih m hm).mp h⟩
          · rintro ⟨m, hm, h⟩
            exact ⟨m, hm, (ih m hm).mpr h⟩
      | _ => simp [leaves, leaf_iff_eq]

theorem inDomain_eq_leaves (name : String) (key : Ty) :
    key.inDomain name = key.leaves.anyM (inDomain name) := by
  induction key using parts_induction with
  | step key ih =>
      cases key with
      | union members =>
          rw [inDomain, inSomeDomain_eq, leaves, leavesOf_eq, anyM_flatMap]
          exact anyM_congr ih
      | _ => exact (anyM_singleton _).symm

theorem coversOne_eq_leaves (wider narrower : Ty) :
    coversOne narrower wider = wider.leaves.anyM (coversOne narrower) := by
  induction wider using parts_induction with
  | step wider ih =>
      cases wider with
      | union members =>
          rw [coversOne, someCoversOne_eq, leaves, leavesOf_eq, anyM_flatMap]
          exact anyM_congr ih
      | _ => exact (anyM_singleton _).symm

theorem covers_eq_leaves (wider narrower : Ty) :
    wider.covers narrower = narrower.leaves.allM fun n => coversOne n wider := by
  induction narrower using parts_induction with
  | step narrower ih =>
      cases narrower with
      | union members =>
          rw [covers, coversEach_eq, leaves, leavesOf_eq, allM_flatMap]
          exact allM_congr ih
      | _ => exact (allM_singleton _).symm

/-- An integer beyond the range of binary numbers. -/
def Oversized : Ty → Prop
  | .literal (.number (.int n)) => Binary64.integerLimit ≤ n.natAbs
  | _ => False

/-- Two leaves that cannot be compared, since a name is asked for that is not there. -/
def Incomparable : Ty → Ty → Prop
  | .primitive p, narrower => p = "number" ∧ Oversized narrower
  | .literal l, .literal m => Oversized (.literal l) ∨ Oversized (.literal m)
  | _, _ => False

theorem keyFault?_eq_some_iff {l : Literal} {fault : Fault} :
    l.keyFault? = some fault ↔ Oversized (.literal l) ∧ fault = .integerTooLarge := by
  unfold Literal.keyFault?
  split
  · rename_i n
    have hover : Oversized (.literal (.number (.int n))) ↔ ¬ n.natAbs < Binary64.integerLimit :=
      not_lt.symm
    rw [hover]
    split <;> simp_all [eq_comm]
  · rename_i h
    have hover : ¬ Oversized (.literal l) := by
      unfold Oversized
      split
      · rename_i n heq
        exact absurd (Ty.literal.inj heq) (h n)
      · exact id
    simp [hover]

theorem exists_key_error_iff {l : Literal} : (∃ e, l.key = .error e) ↔ Oversized (.literal l) := by
  unfold Literal.key
  constructor
  · rintro ⟨e, he⟩
    split at he
    · rename_i hfault
      exact (keyFault?_eq_some_iff.mp hfault).1
    · cases he
  · intro h
    rw [keyFault?_eq_some_iff.mpr ⟨h, rfl⟩]
    exact ⟨_, rfl⟩

theorem exists_inDomain_error_iff {leaf : Ty} (hleaf : ∀ members, leaf ≠ .union members)
    (name : String) : (∃ e, leaf.inDomain name = .error e) ↔ leaf.Oversized := by
  cases leaf with
  | literal l =>
      rw [← exists_key_error_iff, inDomain]
      cases l.key <;> simp [Except.map]
  | union members => exact absurd rfl (hleaf members)
  | _ => simp [inDomain, Oversized]

theorem exists_numbersCover_error_iff {narrower : Ty} :
    (∃ e, numbersCover narrower = .error e) ↔ narrower.Oversized := by
  cases narrower with
  | literal l =>
      rw [← exists_key_error_iff, numbersCover]
      cases l.key <;> simp [Except.map]
  | _ => simp [numbersCover, Oversized]

theorem exists_coversOne_error_iff {leaf narrower : Ty}
    (hleaf : ∀ members, leaf ≠ .union members) :
    (∃ e, coversOne narrower leaf = .error e) ↔ Incomparable leaf narrower := by
  cases leaf with
  | primitive p =>
      rw [coversOne, Incomparable]
      by_cases hstring : p = "string"
      · simp [hstring]
      · by_cases hnumber : p = "number"
        · simp [hnumber, exists_numbersCover_error_iff]
        · simp [hstring, hnumber]
  | literal l =>
      cases narrower with
      | literal m =>
          rw [coversOne, literalCovers, Incomparable, ← exists_key_error_iff,
            ← exists_key_error_iff]
          cases l.key <;> cases m.key <;> simp
      | _ => simp [coversOne, literalCovers, Incomparable]
  | union members => exact absurd rfl (hleaf members)
  | _ => simp [coversOne, Incomparable]

theorem exists_inDomain_iff (key : Ty) (name : String) :
    (∃ b, key.inDomain name = .ok b) ↔ Sheltered (LeafHasName name) Oversized key.leaves := by
  rw [inDomain_eq_leaves]
  apply exists_anyM_iff
  · intro leaf hleaf
    exact exists_inDomain_error_iff (mem_leaves_iff.mp hleaf).ne_union name
  · intro leaf hleaf b hb
    rw [inDomain_eq_ok hb, hasName_iff (mem_leaves_iff.mp hleaf).ne_union]

theorem exists_coversOne_iff (wider narrower : Ty) :
    (∃ b, coversOne narrower wider = .ok b) ↔
      Sheltered (LeafCovers · narrower) (Incomparable · narrower) wider.leaves := by
  rw [coversOne_eq_leaves]
  apply exists_anyM_iff
  · intro w hw
    exact exists_coversOne_error_iff (mem_leaves_iff.mp hw).ne_union
  · intro w hw b hb
    simp [coversOne_eq_ok hb, leaf_iff_eq (mem_leaves_iff.mp hw).ne_union]

/-- Going through the leaves of the narrower type, one may stop at a leaf that is not covered; a
leaf is an obstacle when the wider type cannot be asked for it. -/
theorem exists_covers_iff (wider narrower : Ty) :
    (∃ b, wider.covers narrower = .ok b) ↔
      Sheltered (fun n => ¬ ∃ w, Leaf w wider ∧ LeafCovers w n)
        (fun n => ¬ Sheltered (LeafCovers · n) (Incomparable · n) wider.leaves)
        narrower.leaves := by
  rw [covers_eq_leaves]
  apply exists_allM_iff
  · intro n hn
    rw [← exists_coversOne_iff]
    cases coversOne n wider <;> simp
  · intro n hn b hb
    rw [coversOne_eq_ok hb, not_not]

theorem textFaultMembers?_eq_none {style : Style} {members : List Ty} {m : Ty}
    (h : textFaultMembers? style members = none) (hm : m ∈ members) :
    textFault? style m = none := by
  induction members with
  | nil => simp at hm
  | cons first rest ih =>
      rw [textFaultMembers?, Option.or_eq_none_iff] at h
      rcases List.mem_cons.mp hm with rfl | hm
      · exact h.1
      · exact ih h.2 hm

theorem not_oversized_of_textFault? {leaf key : Ty} (hleaf : Leaf leaf key)
    (h : textFault? .domain key = none) : ¬ leaf.Oversized := by
  induction hleaf with
  | self _ =>
      intro hover
      cases leaf with
      | literal l =>
          have hfault := keyFault?_eq_some_iff.mpr ⟨hover, rfl⟩
          rw [textFault?, hfault] at h
          cases h
      | _ => exact hover
  | member hm _ ih => exact ih (textFaultMembers?_eq_none h hm)

theorem integersInRange_iff {key : Ty} :
    key.IntegersInRange ↔ ∀ leaf ∈ key.leaves, ¬ leaf.Oversized := by
  simp only [IntegersInRange, mem_leaves_iff]
  constructor
  · intro h leaf hleaf hover
    unfold Oversized at hover
    split at hover
    · rename_i n
      exact absurd (h n hleaf) (not_lt.mpr hover)
    · exact hover
  · intro h n hn
    exact not_le.mp (h _ hn)

theorem exists_renderDomain_iff {key : Ty} (hkey : key.isKeyDomain = true) :
    (∃ text, key.renderDomain = .ok text) ↔ key.IntegersInRange := by
  constructor
  · rintro ⟨text, htext⟩
    rw [integersInRange_iff]
    intro leaf hleaf
    apply not_oversized_of_textFault? (mem_leaves_iff.mp hleaf)
    unfold renderDomain textOrFault at htext
    split at htext
    · cases htext
    · assumption
  · intro h
    cases htext : key.renderDomain with
    | ok text => exact ⟨text, rfl⟩
    | error fault =>
        obtain ⟨l, hl, hfault⟩ := renderDomain_eq_error hkey htext
        rw [h.keyFault? hl] at hfault
        cases hfault

/-- The integers of a key type decide whether it can be used as the key of an index rule. Its text
can be written exactly when all of them are in range. A name can be looked up, and another key type
compared, exactly when no integer out of range is met before the answer is known. Nothing else can
go wrong. -/
theorem key_domain_returns {key value : Ty} {readonly : Bool} {rule : IndexRule Ty}
    (hrule : IndexRule.build key value readonly = .ok rule) (other : Ty) :
    ((∃ text, key.renderDomain = .ok text) ↔ key.IntegersInRange) ∧
      (∀ name, (∃ b, key.inDomain name = .ok b) ↔
        Sheltered (LeafHasName name) Oversized key.leaves) ∧
      ((∃ b, key.covers other = .ok b) ↔
        Sheltered (fun n => ¬ ∃ w, Leaf w key ∧ LeafCovers w n)
          (fun n => ¬ Sheltered (LeafCovers · n) (Incomparable · n) key.leaves) other.leaves) ∧
      (key.IntegersInRange → ∀ name, ∃ b, key.inDomain name = .ok b) ∧
      (key.IntegersInRange → other.IntegersInRange → ∃ b, key.covers other = .ok b) ∧
      ∀ fault, key.renderDomain = .error fault ∨ (∃ name, key.inDomain name = .error fault) ∨
        key.covers other = .error fault → fault = .integerTooLarge := by
  have hkey : key.isKeyDomain = true := by
    unfold IndexRule.build at hrule
    split at hrule
    · assumption
    · cases hrule
  refine ⟨exists_renderDomain_iff hkey, exists_inDomain_iff key, exists_covers_iff key other,
    fun h name => ?_, fun h hother => h.exists_covers hother, ?_⟩
  · rw [exists_inDomain_iff]
    exact sheltered_of_forall (integersInRange_iff.mp h)
  · rintro fault (htext | ⟨name, hname⟩ | hcovers)
    · obtain ⟨l, -, hfault⟩ := renderDomain_eq_error hkey htext
      exact (keyFault?_eq_some_iff.mp hfault).2
    · obtain ⟨l, -, hfault⟩ := inDomain_eq_error hname
      exact (keyFault?_eq_some_iff.mp hfault).2
    · obtain ⟨l, -, hfault⟩ := covers_eq_error hcovers
      exact (keyFault?_eq_some_iff.mp hfault).2

/-- An integer that is accepted as a key and stands for no name. -/
def hugeInteger : Ty :=
  .literal (.number (.int (10 ^ 309)))

theorem oversized_hugeInteger : hugeInteger.Oversized := by
  change Binary64.integerLimit ≤ (10 ^ 309 : Int).natAbs
  decide +kernel

/-- An index rule over such an integer is accepted, and then nothing can be asked of it. -/
theorem hugeInteger_unusable :
    IndexRule.build hugeInteger string false = .ok ⟨hugeInteger, string, false⟩ ∧
      hugeInteger.inDomain "a" = .error .integerTooLarge ∧
      hugeInteger.covers hugeInteger = .error .integerTooLarge ∧
      hugeInteger.renderDomain = .error .integerTooLarge ∧
      (object [] (some ⟨hugeInteger, string, false⟩)).render = .error .integerTooLarge := by
  have hfault : (Literal.number (.int (10 ^ 309))).keyFault? = some .integerTooLarge :=
    keyFault?_eq_some_iff.mpr ⟨oversized_hugeInteger, rfl⟩
  have hkey : (Literal.number (.int (10 ^ 309))).key = .error .integerTooLarge := by
    rw [Literal.key, hfault]
  have htext : textFault? .domain hugeInteger = some .integerTooLarge := hfault
  refine ⟨rfl, ?_, ?_, ?_, ?_⟩
  · rw [hugeInteger, inDomain, hkey, Except.map]
  · simp only [hugeInteger, covers, coversOne, literalCovers, hkey]
  · rw [renderDomain, textOrFault, htext]
  · rw [render, textOrFault, textFault?, textFaultFields?, textFaultIndex?, htext]
    rfl

/-- A name, the integer and then all names. -/
def openEnded : Ty :=
  .union [.literal (.text "id"), .union [hugeInteger, .string]]

theorem key_domain_returns_openEnded :
    IndexRule.build openEnded .string true = .ok ⟨openEnded, .string, true⟩ ∧
      (∃ b, openEnded.inDomain "id" = .ok b) ∧ (¬ ∃ b, openEnded.inDomain "name" = .ok b) ∧
      (¬ ∃ text, openEnded.renderDomain = .ok text) ∧
      ∃ b, openEnded.covers (.literal (.text "id")) = .ok b := by
  have hrule : IndexRule.build openEnded .string true = .ok ⟨openEnded, .string, true⟩ := rfl
  obtain ⟨htext, hnames, hcovers, -⟩ := key_domain_returns hrule (.literal (.text "id"))
  have hleaves : openEnded.leaves = [.literal (.text "id"), hugeInteger, .string] := rfl
  have hover := oversized_hugeInteger
  have hid : ¬ Oversized (.literal (.text "id")) := id
  refine ⟨hrule, (hnames "id").mpr ?_, ?_, ?_, hcovers.mpr ?_⟩
  · rw [hleaves, sheltered_cons]
    exact ⟨hid, Or.inl rfl⟩
  · rw [hnames, hleaves, sheltered_cons, sheltered_cons]
    rintro ⟨-, h | ⟨h, -⟩⟩
    · simp [LeafHasName, Literal.keyText] at h
    · exact h hover
  · rw [htext, integersInRange_iff, hleaves]
    intro h
    exact h hugeInteger (by simp) hover
  · apply sheltered_of_forall
    intro n hn
    rw [not_not, hleaves, sheltered_cons]
    rw [show n = .literal (.text "id") by simpa [leaves] using hn]
    exact ⟨fun h => h.elim hid hid, Or.inl rfl⟩

end Ty

end StructuralTypes
