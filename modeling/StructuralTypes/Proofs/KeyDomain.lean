import StructuralTypes.Proofs.Equality
import StructuralTypes.Ty.Text

namespace StructuralTypes

section ShortCircuit

variable {α ε : Type} {test : α → Except ε Bool} {P : α → Prop}

theorem anyM_eq_ok {l : List α} {b : Bool}
    (htest : ∀ a ∈ l, ∀ b, test a = .ok b → (b = true ↔ P a)) (h : l.anyM test = .ok b) :
    b = true ↔ ∃ a ∈ l, P a := by
  induction l with
  | nil =>
      cases h
      simp
  | cons a rest ih =>
      rw [List.exists_mem_cons_iff]
      cases ha : test a with
      | error e => simp [List.anyM, ha, bind, Except.bind] at h
      | ok c =>
          rw [← htest a List.mem_cons_self c ha]
          cases c with
          | true =>
              simp only [List.anyM, ha, bind, Except.bind] at h
              cases h
              simp
          | false =>
              simp only [List.anyM, ha, bind, Except.bind] at h
              rw [ih (fun a' ha' => htest a' (List.mem_cons_of_mem a ha')) h]
              simp

theorem allM_eq_ok {l : List α} {b : Bool}
    (htest : ∀ a ∈ l, ∀ b, test a = .ok b → (b = true ↔ P a)) (h : l.allM test = .ok b) :
    b = true ↔ ∀ a ∈ l, P a := by
  induction l with
  | nil =>
      cases h
      simp
  | cons a rest ih =>
      rw [List.forall_mem_cons]
      cases ha : test a with
      | error e => simp [List.allM, ha, bind, Except.bind] at h
      | ok c =>
          rw [← htest a List.mem_cons_self c ha]
          cases c with
          | true =>
              simp only [List.allM, ha, bind, Except.bind] at h
              rw [ih (fun a' ha' => htest a' (List.mem_cons_of_mem a ha')) h]
              simp
          | false =>
              simp only [List.allM, ha, bind, Except.bind] at h
              cases h
              simp

theorem anyM_eq_error {l : List α} {e : ε} (h : l.anyM test = .error e) :
    ∃ a ∈ l, test a = .error e := by
  induction l with
  | nil => cases h
  | cons a rest ih =>
      cases ha : test a with
      | error e' =>
          simp only [List.anyM, ha, bind, Except.bind, Except.error.injEq] at h
          exact ⟨a, List.mem_cons_self, by rw [ha, h]⟩
      | ok c =>
          cases c with
          | true => simp [List.anyM, ha, bind, Except.bind, pure, Except.pure] at h
          | false =>
              simp only [List.anyM, ha, bind, Except.bind] at h
              obtain ⟨a', ha', hfault⟩ := ih h
              exact ⟨a', List.mem_cons_of_mem a ha', hfault⟩

theorem allM_eq_error {l : List α} {e : ε} (h : l.allM test = .error e) :
    ∃ a ∈ l, test a = .error e := by
  induction l with
  | nil => cases h
  | cons a rest ih =>
      cases ha : test a with
      | error e' =>
          simp only [List.allM, ha, bind, Except.bind, Except.error.injEq] at h
          exact ⟨a, List.mem_cons_self, by rw [ha, h]⟩
      | ok c =>
          cases c with
          | true =>
              simp only [List.allM, ha, bind, Except.bind] at h
              obtain ⟨a', ha', hfault⟩ := ih h
              exact ⟨a', List.mem_cons_of_mem a ha', hfault⟩
          | false => simp [List.allM, ha, bind, Except.bind, pure, Except.pure] at h

end ShortCircuit

namespace Literal

theorem key_eq_ok {l : Literal} {name : String} (h : l.key = .ok name) : name = l.keyText := by
  unfold key at h
  split at h
  · cases h
  · exact (Except.ok.inj h).symm

theorem key_eq_error {l : Literal} {fault : Fault} (h : l.key = .error fault) :
    l.keyFault? = some fault := by
  unfold key at h
  split at h
  · rename_i hfault
    rw [hfault, Except.error.inj h]
  · cases h

theorem keyText_eq_of_same {l m : Literal} (h : l.same m = true) : l.keyText = m.keyText := by
  cases l <;> cases m <;> simp only [same, beq_iff_eq, Bool.false_eq_true] at h
  case text.text => exact h
  case bool.bool => rw [h]
  case number.number a b =>
    cases a <;> cases b <;> simp only [Number.same, beq_iff_eq] at h
    case int.int => rw [h]
    case int.float => simp [keyText, h]
    case float.int => simp [keyText, h]
    case float.float x y =>
      have hint := Binary64.integer?_eq_of_same h
      cases hx : x.integer? with
      | some n => simp [keyText, hx, ← hint]
      | none =>
          -- Two equal numbers that are no integers are equal in all their parts.
          have hxy : x = y := by
            cases x <;> cases y <;> simp_all [Binary64.same, Binary64.integer?]
            rcases h with ⟨h, -⟩ | ⟨⟨hn, hm⟩, he⟩
            · simp [h] at hx
            · exact ⟨hn, hm, he⟩
          rw [hxy]

end Literal

namespace Ty

/-- The types that a nest of unions is made of. -/
inductive Leaf : Ty → Ty → Prop
  | self {t : Ty} (h : ∀ members, t ≠ .union members) : Leaf t t
  | member {leaf m : Ty} {members : List Ty} (hm : m ∈ members) (h : Leaf leaf m) :
      Leaf leaf (.union members)

theorem leaf_union_iff {leaf : Ty} {members : List Ty} :
    Leaf leaf (.union members) ↔ ∃ m ∈ members, Leaf leaf m := by
  constructor
  · intro h
    cases h with
    | self h => exact absurd rfl (h members)
    | member hm h => exact ⟨_, hm, h⟩
  · rintro ⟨m, hm, h⟩
    exact .member hm h

theorem leaf_iff_eq {leaf t : Ty} (ht : ∀ members, t ≠ .union members) :
    Leaf leaf t ↔ leaf = t := by
  constructor
  · intro h
    cases h with
    | self => rfl
    | member => exact absurd rfl (ht _)
  · rintro rfl
    exact .self ht

theorem Leaf.ne_union {leaf t : Ty} (h : Leaf leaf t) (members : List Ty) :
    leaf ≠ .union members := by
  induction h with
  | self h => exact h members
  | member _ _ ih => exact ih

theorem Leaf.mem_inside {leaf t : Ty} (h : Leaf leaf t) : leaf ∈ t.inside := by
  induction h with
  | self => exact self_mem_inside _
  | member hm _ ih => exact mem_inside_iff.mpr (Or.inr ⟨_, by simpa [parts] using hm, ih⟩)

/-- Whether a leaf of a key type has a name in its domain. -/
def LeafHasName (name : String) : Ty → Prop
  | .primitive p => p = "string" ∨ p = "number" ∧ Key.isNumeric name = true
  | .literal l => l.keyText = name
  | _ => False

/-- The names in the domain of a key type. -/
def HasName (key : Ty) (name : String) : Prop :=
  ∃ leaf, Leaf leaf key ∧ LeafHasName name leaf

/-- Whether the numbers have the domain of a leaf. -/
def NumbersCover : Ty → Prop
  | .primitive p => p = "number"
  | .literal l => Key.isNumeric l.keyText = true
  | _ => False

/-- Whether the domain of a leaf has that of another. -/
def LeafCovers : Ty → Ty → Prop
  | .primitive p, narrower => p = "string" ∨ p = "number" ∧ NumbersCover narrower
  | .literal l, .literal m => l.keyText = m.keyText
  | _, _ => False

/-- Whether the domain of a key type has that of another, leaf by leaf. -/
def Covers (wider narrower : Ty) : Prop :=
  ∀ n, Leaf n narrower → ∃ w, Leaf w wider ∧ LeafCovers w n

theorem hasName_union_iff {members : List Ty} {name : String} :
    HasName (.union members) name ↔ ∃ m ∈ members, HasName m name := by
  simp only [HasName, leaf_union_iff]
  constructor
  · rintro ⟨leaf, ⟨m, hm, hleaf⟩, hname⟩
    exact ⟨m, hm, leaf, hleaf, hname⟩
  · rintro ⟨m, hm, leaf, hleaf, hname⟩
    exact ⟨leaf, ⟨m, hm, hleaf⟩, hname⟩

theorem hasName_iff {key : Ty} {name : String} (h : ∀ members, key ≠ .union members) :
    HasName key name ↔ LeafHasName name key := by
  simp [HasName, leaf_iff_eq h]

theorem inSomeDomain_eq (name : String) (members : List Ty) :
    inSomeDomain name members = members.anyM (inDomain name) := by
  induction members with
  | nil => rfl
  | cons m rest ih =>
      simp only [inSomeDomain, List.anyM, bind, Except.bind, ih]
      split <;> simp_all [pure, Except.pure]

theorem inDomain_eq_ok {key : Ty} {name : String} {b : Bool} (h : inDomain name key = .ok b) :
    b = true ↔ key.HasName name := by
  induction key using parts_induction generalizing b with
  | step key ih =>
      cases key with
      | union members =>
          rw [hasName_union_iff]
          simp only [inDomain, inSomeDomain_eq] at h
          exact anyM_eq_ok (fun m hm b => ih m hm) h
      | literal l =>
          rw [hasName_iff (by simp), LeafHasName]
          simp only [inDomain] at h
          cases hkey : l.key with
          | error fault => simp [hkey, Except.map] at h
          | ok text =>
              simp only [hkey, Except.map, Except.ok.injEq] at h
              rw [← h, beq_iff_eq, Literal.key_eq_ok hkey]
      | _ =>
          rw [hasName_iff (by simp)]
          cases h
          simp [LeafHasName]

theorem numbersCover_eq_ok {narrower : Ty} {b : Bool} (h : numbersCover narrower = .ok b) :
    b = true ↔ NumbersCover narrower := by
  cases narrower with
  | literal l =>
      simp only [numbersCover] at h
      cases hkey : l.key with
      | error fault => simp [hkey, Except.map] at h
      | ok text =>
          simp only [hkey, Except.map, Except.ok.injEq] at h
          rw [← h, NumbersCover, Literal.key_eq_ok hkey]
  | primitive p =>
      cases h
      simp [NumbersCover]
  | _ =>
      cases h
      simp [NumbersCover]

theorem literalCovers_eq_ok {l : Literal} {narrower : Ty} {b : Bool}
    (h : literalCovers l narrower = .ok b) : b = true ↔ LeafCovers (.literal l) narrower := by
  cases narrower with
  | literal m =>
      simp only [literalCovers] at h
      split at h
      · cases h
      · cases h
      · rename_i hl hm
        cases h
        rw [beq_iff_eq, LeafCovers, Literal.key_eq_ok hl, Literal.key_eq_ok hm]
  | _ =>
      cases h
      simp [LeafCovers]

theorem someCoversOne_eq (narrower : Ty) (members : List Ty) :
    someCoversOne narrower members = members.anyM (coversOne narrower) := by
  induction members with
  | nil => rfl
  | cons m rest ih =>
      simp only [someCoversOne, List.anyM, bind, Except.bind, ih]
      split <;> simp_all [pure, Except.pure]

theorem coversOne_eq_ok {wider narrower : Ty} {b : Bool} (h : coversOne narrower wider = .ok b) :
    b = true ↔ ∃ w, Leaf w wider ∧ LeafCovers w narrower := by
  induction wider using parts_induction generalizing b with
  | step wider ih =>
      cases wider with
      | union members =>
          simp only [coversOne, someCoversOne_eq] at h
          rw [anyM_eq_ok (fun m hm b => ih m hm) h]
          simp only [leaf_union_iff]
          constructor
          · rintro ⟨m, hm, w, hw, hcovers⟩
            exact ⟨w, ⟨m, hm, hw⟩, hcovers⟩
          · rintro ⟨w, ⟨m, hm, hw⟩, hcovers⟩
            exact ⟨m, hm, w, hw, hcovers⟩
      | primitive p =>
          simp only [leaf_iff_eq (t := .primitive p) (by simp), exists_eq_left, LeafCovers]
          simp only [coversOne] at h
          split at h
          · rename_i hp
            cases h
            simp [hp]
          · rename_i hp
            split at h
            · rename_i hnumber
              simp [hnumber, numbersCover_eq_ok h]
            · rename_i hnumber
              cases h
              simp [hp, hnumber]
      | literal l =>
          simp only [leaf_iff_eq (t := .literal l) (by simp), exists_eq_left]
          exact literalCovers_eq_ok h
      | _ =>
          cases h
          simp [leaf_iff_eq, LeafCovers]

theorem coversEach_eq (wider : Ty) (members : List Ty) :
    coversEach wider members = members.allM (covers wider) := by
  induction members with
  | nil => rfl
  | cons m rest ih =>
      simp only [coversEach, List.allM, bind, Except.bind, ih]
      split <;> simp_all [pure, Except.pure]

theorem covers_eq_ok {wider narrower : Ty} {b : Bool} (h : covers wider narrower = .ok b) :
    b = true ↔ wider.Covers narrower := by
  induction narrower using parts_induction generalizing b with
  | step narrower ih =>
      cases narrower with
      | union members =>
          simp only [covers, coversEach_eq] at h
          rw [allM_eq_ok (fun m hm b => ih m hm) h]
          simp only [Covers, leaf_union_iff]
          constructor
          · rintro hall n ⟨m, hm, hn⟩
            exact hall m hm n hn
          · intro hall m hm n hn
            exact hall n ⟨m, hm, hn⟩
      | _ =>
          simp only [covers] at h
          rw [coversOne_eq_ok h, Covers]
          simp [leaf_iff_eq]

theorem inDomain_eq_error {key : Ty} {name : String} {fault : Fault}
    (h : inDomain name key = .error fault) :
    ∃ l, Leaf (.literal l) key ∧ l.keyFault? = some fault := by
  induction key using parts_induction with
  | step key ih =>
      cases key with
      | union members =>
          simp only [inDomain, inSomeDomain_eq] at h
          obtain ⟨m, hm, hfault⟩ := anyM_eq_error h
          obtain ⟨l, hl, hkey⟩ := ih m hm hfault
          exact ⟨l, .member hm hl, hkey⟩
      | literal l =>
          simp only [inDomain] at h
          cases hkey : l.key with
          | error fault' =>
              simp only [hkey, Except.map, Except.error.injEq] at h
              exact ⟨l, .self (by simp), h ▸ Literal.key_eq_error hkey⟩
          | ok text => simp [hkey, Except.map] at h
      | _ => cases h

theorem numbersCover_eq_error {narrower : Ty} {fault : Fault}
    (h : numbersCover narrower = .error fault) :
    ∃ l, narrower = .literal l ∧ l.keyFault? = some fault := by
  cases narrower with
  | literal l =>
      simp only [numbersCover] at h
      cases hkey : l.key with
      | error fault' =>
          simp only [hkey, Except.map, Except.error.injEq] at h
          exact ⟨l, rfl, h ▸ Literal.key_eq_error hkey⟩
      | ok text => simp [hkey, Except.map] at h
  | _ => cases h

theorem literalCovers_eq_error {wider : Literal} {narrower : Ty} {fault : Fault}
    (h : literalCovers wider narrower = .error fault) :
    ∃ l, (l = wider ∨ narrower = .literal l) ∧ l.keyFault? = some fault := by
  cases narrower with
  | literal m =>
      simp only [literalCovers] at h
      split at h
      · rename_i hkey
        cases h
        exact ⟨wider, Or.inl rfl, Literal.key_eq_error hkey⟩
      · rename_i hkey _
        cases h
        exact ⟨m, Or.inr rfl, Literal.key_eq_error hkey⟩
      · cases h
  | _ => cases h

theorem coversOne_eq_error {wider narrower : Ty} {fault : Fault}
    (h : coversOne narrower wider = .error fault) :
    ∃ l, (Leaf (.literal l) wider ∨ narrower = .literal l) ∧ l.keyFault? = some fault := by
  induction wider using parts_induction with
  | step wider ih =>
      cases wider with
      | union members =>
          simp only [coversOne, someCoversOne_eq] at h
          obtain ⟨m, hm, hfault⟩ := anyM_eq_error h
          obtain ⟨l, hl, hkey⟩ := ih m hm hfault
          exact ⟨l, hl.imp_left (.member hm), hkey⟩
      | primitive p =>
          simp only [coversOne] at h
          split at h
          · cases h
          · split at h
            · obtain ⟨l, hl, hkey⟩ := numbersCover_eq_error h
              exact ⟨l, Or.inr hl, hkey⟩
            · cases h
      | literal w =>
          obtain ⟨l, hl, hkey⟩ := literalCovers_eq_error h
          refine ⟨l, hl.imp_left ?_, hkey⟩
          rintro rfl
          exact .self (by simp)
      | _ => cases h

theorem covers_eq_error {wider narrower : Ty} {fault : Fault}
    (h : covers wider narrower = .error fault) :
    ∃ l, (Leaf (.literal l) wider ∨ Leaf (.literal l) narrower) ∧ l.keyFault? = some fault := by
  induction narrower using parts_induction with
  | step narrower ih =>
      cases narrower with
      | union members =>
          simp only [covers, coversEach_eq] at h
          obtain ⟨m, hm, hfault⟩ := allM_eq_error h
          obtain ⟨l, hl, hkey⟩ := ih m hm hfault
          exact ⟨l, hl.imp_right (.member hm), hkey⟩
      | _ =>
          simp only [covers] at h
          obtain ⟨l, hl, hkey⟩ := coversOne_eq_error h
          refine ⟨l, hl.imp_right ?_, hkey⟩
          intro heq
          rw [heq]
          exact .self (by simp)

theorem areKeyDomains_iff {members : List Ty} :
    areKeyDomains members = true ↔ ∀ m ∈ members, m.isKeyDomain = true := by
  induction members with
  | nil => simp [areKeyDomains]
  | cons m rest ih => simp [areKeyDomains, ih]

theorem textFaultMembers?_eq_some {style : Style} {members : List Ty} {fault : Fault}
    (h : textFaultMembers? style members = some fault) :
    ∃ m ∈ members, textFault? style m = some fault := by
  induction members with
  | nil => cases h
  | cons m rest ih =>
      rw [textFaultMembers?, Option.or_eq_some_iff] at h
      rcases h with h | ⟨-, h⟩
      · exact ⟨m, List.mem_cons_self, h⟩
      · obtain ⟨m', hm', hfault⟩ := ih h
        exact ⟨m', List.mem_cons_of_mem m hm', hfault⟩

theorem renderDomain_eq_error {key : Ty} {fault : Fault} (hkey : key.isKeyDomain = true)
    (h : key.renderDomain = .error fault) :
    ∃ l, Leaf (.literal l) key ∧ l.keyFault? = some fault := by
  have htext : textFault? .domain key = some fault := by
    unfold renderDomain textOrFault at h
    split at h
    · rename_i hfault
      rw [hfault, Except.error.inj h]
    · cases h
  clear h
  induction key using parts_induction with
  | step key ih =>
      cases key with
      | union members =>
          obtain ⟨m, hm, hfault⟩ := textFaultMembers?_eq_some htext
          obtain ⟨l, hl, hfault⟩ := ih m hm (areKeyDomains_iff.mp hkey m hm) hfault
          exact ⟨l, .member hm hl, hfault⟩
      | literal l => exact ⟨l, .self (by simp), htext⟩
      | primitive p => cases htext
      | _ => cases hkey

theorem Leaf.of_beq {leaf key key' : Ty} (hleaf : Leaf leaf key) (h : key == key') :
    ∃ leaf', Leaf leaf' key' ∧ leaf == leaf' := by
  induction hleaf generalizing key' with
  | self hne =>
      refine ⟨key', .self ?_, h⟩
      rintro members rfl
      cases alike_of_beq h
      exact hne _ rfl
  | member hm _ ih =>
      cases alike_of_beq h with
      | union forth _ =>
          obtain ⟨m', hm', hmm⟩ := forth _ hm
          obtain ⟨leaf', hleaf', hbeq⟩ := ih hmm
          exact ⟨leaf', .member hm' hleaf', hbeq⟩

theorem Leaf.of_beq' {leaf' key key' : Ty} (hleaf : Leaf leaf' key') (h : key == key') :
    ∃ leaf, Leaf leaf key ∧ leaf == leaf' := by
  induction hleaf generalizing key with
  | self hne =>
      refine ⟨key, .self ?_, h⟩
      rintro members rfl
      cases alike_of_beq h
      exact hne _ rfl
  | member hm _ ih =>
      cases alike_of_beq h with
      | union _ back =>
          obtain ⟨m, hm, hmm⟩ := back _ hm
          obtain ⟨leaf, hleaf, hbeq⟩ := ih hmm
          exact ⟨leaf, .member hm hleaf, hbeq⟩

theorem leafHasName_congr {leaf leaf' : Ty} (h : leaf == leaf') (name : String) :
    LeafHasName name leaf ↔ LeafHasName name leaf' := by
  cases alike_of_beq h with
  | literal h => simp only [LeafHasName, Literal.keyText_eq_of_same h]
  | _ => simp only [LeafHasName]

theorem numbersCover_congr {n n' : Ty} (h : n == n') : NumbersCover n ↔ NumbersCover n' := by
  cases alike_of_beq h with
  | literal h => simp only [NumbersCover, Literal.keyText_eq_of_same h]
  | _ => simp only [NumbersCover]

theorem leafCovers_congr_left {w w' : Ty} (h : w == w') (n : Ty) :
    LeafCovers w n ↔ LeafCovers w' n := by
  cases alike_of_beq h with
  | literal h => cases n <;> simp only [LeafCovers, Literal.keyText_eq_of_same h]
  | _ => simp only [LeafCovers]

theorem leafCovers_congr_right {n n' : Ty} (h : n == n') (w : Ty) :
    LeafCovers w n ↔ LeafCovers w n' := by
  cases w with
  | primitive p => simp only [LeafCovers, numbersCover_congr h]
  | literal l =>
      cases alike_of_beq h with
      | literal h => simp only [LeafCovers, Literal.keyText_eq_of_same h]
      | _ => simp only [LeafCovers]
  | _ => simp only [LeafCovers]

/-- Key types that no test on key types tells apart. -/
structure SameDomain (key key' : Ty) : Prop where
  hasName : ∀ name, key.HasName name ↔ key'.HasName name
  covers : ∀ narrower, key.Covers narrower ↔ key'.Covers narrower
  covered : ∀ wider, Covers wider key ↔ Covers wider key'

theorem SameDomain.refl (key : Ty) : SameDomain key key :=
  ⟨fun _ => Iff.rfl, fun _ => Iff.rfl, fun _ => Iff.rfl⟩

theorem SameDomain.symm {key key' : Ty} (h : SameDomain key key') : SameDomain key' key :=
  ⟨fun name => (h.hasName name).symm, fun n => (h.covers n).symm, fun w => (h.covered w).symm⟩

theorem SameDomain.trans {key key' key'' : Ty} (h : SameDomain key key')
    (h' : SameDomain key' key'') : SameDomain key key'' :=
  ⟨fun name => (h.hasName name).trans (h'.hasName name),
    fun n => (h.covers n).trans (h'.covers n), fun w => (h.covered w).trans (h'.covered w)⟩

theorem SameDomain.of_beq {key key' : Ty} (h : key == key') : SameDomain key key' where
  hasName name := by
    constructor
    · rintro ⟨leaf, hleaf, hname⟩
      obtain ⟨leaf', hleaf', hbeq⟩ := hleaf.of_beq h
      exact ⟨leaf', hleaf', (leafHasName_congr hbeq name).mp hname⟩
    · rintro ⟨leaf', hleaf', hname⟩
      obtain ⟨leaf, hleaf, hbeq⟩ := hleaf'.of_beq' h
      exact ⟨leaf, hleaf, (leafHasName_congr hbeq name).mpr hname⟩
  covers narrower := by
    constructor
    · intro hcovers n hn
      obtain ⟨w, hw, hwn⟩ := hcovers n hn
      obtain ⟨w', hw', hbeq⟩ := hw.of_beq h
      exact ⟨w', hw', (leafCovers_congr_left hbeq n).mp hwn⟩
    · intro hcovers n hn
      obtain ⟨w', hw', hwn⟩ := hcovers n hn
      obtain ⟨w, hw, hbeq⟩ := hw'.of_beq' h
      exact ⟨w, hw, (leafCovers_congr_left hbeq n).mpr hwn⟩
  covered wider := by
    constructor
    · intro hcovers n' hn'
      obtain ⟨n, hn, hbeq⟩ := hn'.of_beq' h
      obtain ⟨w, hw, hwn⟩ := hcovers n hn
      exact ⟨w, hw, (leafCovers_congr_right hbeq w).mp hwn⟩
    · intro hcovers n hn
      obtain ⟨n', hn', hbeq⟩ := hn.of_beq h
      obtain ⟨w, hw, hwn⟩ := hcovers n' hn'
      exact ⟨w, hw, (leafCovers_congr_right hbeq w).mpr hwn⟩

theorem Leaf.isKeyDomain {leaf key : Ty} (h : Leaf leaf key) (hkey : key.isKeyDomain = true) :
    leaf.isKeyDomain = true := by
  induction h with
  | self => exact hkey
  | member hm _ ih => exact ih (areKeyDomains_iff.mp hkey _ hm)

theorem covers_refl {key : Ty} (hkey : key.isKeyDomain = true) : key.Covers key := by
  intro leaf hleaf
  refine ⟨leaf, hleaf, ?_⟩
  have hdomain := hleaf.isKeyDomain hkey
  cases leaf with
  | primitive p => simpa [LeafCovers, NumbersCover, isKeyDomain] using hdomain
  | literal l => rfl
  | union members => exact absurd rfl (hleaf.ne_union members)
  | _ => cases hdomain

end Ty

end StructuralTypes
