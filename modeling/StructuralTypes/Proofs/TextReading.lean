import StructuralTypes.Proofs.Findings
import StructuralTypes.Proofs.QuotedText
import StructuralTypes.Proofs.ReadonlyMarks

/-!
What the text of a type tells. The readonly mark of an array is written in front of its element, and
so is the mark of the tuple position that it stands in, so the text shows how many marks there are
and not where they belong. Nothing else is lost: types of the built-in primitives, string literals,
arrays, tuples and objects have the same text exactly when they are the same after all marks are
moved outward.
-/

namespace StructuralTypes

namespace Ty

section Pieces

variable {r r' : List Char}

theorem replicate_append_inj {c : Char} {piece : List Char} {m m' : Nat}
    (hr : r.head? ≠ some c) (hr' : r'.head? ≠ some c)
    (h : (List.replicate m (c :: piece)).flatten ++ r =
      (List.replicate m' (c :: piece)).flatten ++ r') : m = m' ∧ r = r' := by
  induction m generalizing m' with
  | zero =>
      cases m' with
      | zero => exact ⟨rfl, h⟩
      | succ m' =>
          rw [List.replicate_succ, List.flatten_cons] at h
          exact absurd (congrArg List.head? h) hr
  | succ m ih =>
      cases m' with
      | zero =>
          rw [List.replicate_succ, List.flatten_cons] at h
          exact absurd (congrArg List.head? h).symm hr'
      | succ m' =>
          simp only [List.replicate_succ, List.flatten_cons, List.append_assoc,
            List.append_cancel_left_eq] at h
          obtain ⟨rfl, hrest⟩ := ih h
          exact ⟨rfl, hrest⟩

/-- The readonly marks in front of a text. -/
def markChars (m : Nat) : List Char :=
  (List.replicate m "readonly ".toList).flatten

/-- The brackets behind a text. -/
def bracketChars (n : Nat) : List Char :=
  (List.replicate n "[]".toList).flatten

theorem markChars_add (m n : Nat) : markChars (m + n) = markChars m ++ markChars n := by
  rw [markChars, List.replicate_add, List.flatten_append, markChars, markChars]

theorem markChars_add_append (m n : Nat) (r : List Char) :
    markChars (m + n) ++ r = markChars m ++ (markChars n ++ r) := by
  rw [markChars_add, List.append_assoc]

theorem bracketChars_succ (n : Nat) : bracketChars (n + 1) = bracketChars n ++ "[]".toList := by
  simp [bracketChars, List.replicate_succ']

theorem toList_readonlyMark (readonly : Bool) :
    (readonlyMark readonly).toList = markChars readonly.toNat := by
  cases readonly <;> rfl

theorem markChars_append_inj {m m' : Nat} (hr : r.head? ≠ some 'r') (hr' : r'.head? ≠ some 'r')
    (h : markChars m ++ r = markChars m' ++ r') : m = m' ∧ r = r' :=
  replicate_append_inj hr hr' h

theorem bracketChars_append_inj {n n' : Nat} (hr : r.head? ≠ some '[')
    (hr' : r'.head? ≠ some '[') (h : bracketChars n ++ r = bracketChars n' ++ r') :
    n = n' ∧ r = r' :=
  replicate_append_inj hr hr' h

/-- A name without the characters that may follow a name in a text. Identifiers are such names. -/
def Simple (name : String) : Prop :=
  ∀ c ∈ name.toList, c ≠ ' ' ∧ c ≠ '?' ∧ c ≠ ':'

instance (name : String) : Decidable (Simple name) :=
  List.decidableBAll _ _

theorem takeWhile_append {p : Char → Bool} {n : List Char} (hn : ∀ c ∈ n, p c = true)
    (hr : ∃ c, r.head? = some c ∧ p c = false) : (n ++ r).takeWhile p = n := by
  obtain ⟨c, hc, hp⟩ := hr
  rw [List.takeWhile_append_of_pos hn]
  cases r with
  | nil => cases hc
  | cons d r =>
      cases hc
      simp [hp]

theorem name_append_inj {n n' : List Char} (hn : ∀ c ∈ n, c ≠ ' ' ∧ c ≠ '?' ∧ c ≠ ':')
    (hn' : ∀ c ∈ n', c ≠ ' ' ∧ c ≠ '?' ∧ c ≠ ':')
    (hr : r.head? = some ' ' ∨ r.head? = some '?' ∨ r.head? = some ':')
    (hr' : r'.head? = some ' ' ∨ r'.head? = some '?' ∨ r'.head? = some ':')
    (h : n ++ r = n' ++ r') : n = n' ∧ r = r' := by
  have hend : ∀ {l : List Char}, l.head? = some ' ' ∨ l.head? = some '?' ∨ l.head? = some ':' →
      ∃ c, l.head? = some c ∧ decide (c ≠ ' ' ∧ c ≠ '?' ∧ c ≠ ':') = false := by
    rintro l (hl | hl | hl) <;> exact ⟨_, hl, rfl⟩
  have hnames : n = n' := by
    rw [← takeWhile_append (fun c hc => decide_eq_true (hn c hc)) (hend hr), h,
      takeWhile_append (fun c hc => decide_eq_true (hn' c hc)) (hend hr')]
  subst hnames
  exact ⟨rfl, List.append_cancel_left h⟩

/-- A readonly mark is no name, since a blank is part of it. -/
theorem label_append_inj {name name' : String} (hname : Simple name) (hname' : Simple name')
    {readonly readonly' : Bool} (hr : r.head? = some '?' ∨ r.head? = some ':')
    (hr' : r'.head? = some '?' ∨ r'.head? = some ':')
    (h : markChars readonly.toNat ++ (name.toList ++ r) =
      markChars readonly'.toNat ++ (name'.toList ++ r')) :
    readonly = readonly' ∧ name = name' ∧ r = r' := by
  have hword : ∀ c ∈ "readonly".toList, c ≠ ' ' ∧ c ≠ '?' ∧ c ≠ ':' := by simp
  have hblank : ∀ {l : List Char}, l.head? = some '?' ∨ l.head? = some ':' →
      ∀ l', l ≠ ' ' :: l' := by
    rintro l (hl | hl) l' rfl <;> simp at hl
  cases readonly with
  | false =>
      cases readonly' with
      | false =>
          obtain ⟨hnames, hrest⟩ := name_append_inj hname hname' (Or.inr hr) (Or.inr hr') h
          exact ⟨rfl, String.toList_injective hnames, hrest⟩
      | true =>
          change name.toList ++ r = "readonly".toList ++ ' ' :: (name'.toList ++ r') at h
          obtain ⟨-, hrest⟩ := name_append_inj hname hword (Or.inr hr) (Or.inl rfl) h
          exact absurd hrest (hblank hr _)
  | true =>
      cases readonly' with
      | false =>
          change "readonly".toList ++ ' ' :: (name.toList ++ r) = name'.toList ++ r' at h
          obtain ⟨-, hrest⟩ := name_append_inj hword hname' (Or.inl rfl) (Or.inr hr') h
          exact absurd hrest.symm (hblank hr' _)
      | true =>
          obtain ⟨hnames, hrest⟩ := name_append_inj hname hname' (Or.inr hr) (Or.inr hr')
            (List.append_cancel_left h)
          exact ⟨rfl, String.toList_injective hnames, hrest⟩

/-- Items with a separator before each of them and a mark behind the last one can be told apart,
when each item can, whatever follows it. -/
theorem flatMap_append_inj {α β : Type} {f : α → List Char} {g : α → β} (a b : Char)
    (sep close : List Char) (hab : a ≠ b) {xs ys : List α}
    (hitem : ∀ x ∈ xs, ∀ y ∈ ys, ∀ s s' : List Char,
      s.head? = some a ∨ s.head? = some b → s'.head? = some a ∨ s'.head? = some b →
        f x ++ s = f y ++ s' → g x = g y ∧ s = s')
    (h : xs.flatMap (fun x => a :: sep ++ f x) ++ (b :: close ++ r) =
      ys.flatMap (fun y => a :: sep ++ f y) ++ (b :: close ++ r')) :
    xs.map g = ys.map g ∧ r = r' := by
  have hhead : ∀ (l : List α) (s : List Char),
      (l.flatMap (fun x => a :: sep ++ f x) ++ (b :: close ++ s)).head? = some a ∨
        (l.flatMap (fun x => a :: sep ++ f x) ++ (b :: close ++ s)).head? = some b := by
    intro l s
    cases l with
    | nil => exact Or.inr rfl
    | cons x l => exact Or.inl rfl
  induction xs generalizing ys with
  | nil =>
      cases ys with
      | nil => exact ⟨rfl, List.append_cancel_left h⟩
      | cons y ys => exact absurd (List.cons_eq_cons.mp h).1.symm hab
  | cons x xs ih =>
      cases ys with
      | nil => exact absurd (List.cons_eq_cons.mp h).1 hab
      | cons y ys =>
          simp only [List.flatMap_cons, List.append_assoc, List.append_cancel_left_eq] at h
          obtain ⟨hxy, hrest⟩ := hitem x List.mem_cons_self y List.mem_cons_self _ _
            (hhead xs r) (hhead ys r') h
          obtain ⟨hmap, hr⟩ := ih (fun x' hx' y' hy' =>
            hitem x' (List.mem_cons_of_mem x hx') y' (List.mem_cons_of_mem y hy')) hrest
          exact ⟨by rw [List.map_cons, List.map_cons, hxy, hmap], hr⟩

end Pieces

section Texts

/-- The characters of the text of a type. -/
def chars (t : Ty) : List Char :=
  (text .type t).toList

def slotChars (s : Slot Ty) : List Char :=
  markChars s.readonly.toNat ++ (chars s.type ++ (optionalMark s.optional).toList)

def fieldChars (f : String × Slot Ty) : List Char :=
  markChars f.2.readonly.toNat ++
    (f.1.toList ++ ((optionalMark f.2.optional).toList ++ (": ".toList ++ chars f.2.type)))

theorem toList_textSlots (elements : List (Slot Ty)) :
    (textSlots elements).map String.toList = elements.map slotChars := by
  induction elements with
  | nil => rfl
  | cons e rest ih =>
      rw [textSlots, List.map_cons, ih, List.map_cons]
      simp only [slotChars, chars, String.toList_append, toList_readonlyMark, List.append_assoc]

theorem toList_textFields (fields : List (String × Slot Ty)) :
    (textFields fields).map String.toList = fields.map fieldChars := by
  induction fields with
  | nil => rfl
  | cons f rest ih =>
      rw [textFields, List.map_cons, ih, List.map_cons]
      simp only [fieldChars, chars, String.toList_append, toList_readonlyMark, List.append_assoc]

theorem toList_joined (separator item : String) (items : List String) :
    (Text.joined separator (item :: items)).toList =
      item.toList ++ (items.map String.toList).flatMap (separator.toList ++ ·) := by
  induction items generalizing item with
  | nil => simp [Text.joined]
  | cons next rest ih =>
      rw [Text.joined, String.toList_append, String.toList_append, ih]
      · simp
      · simp

theorem chars_tuple_nil : chars (.tuple []) = "[]".toList := rfl

theorem chars_tuple_cons (e : Slot Ty) (rest : List (Slot Ty)) :
    chars (.tuple (e :: rest)) =
      '[' :: (slotChars e ++
        (rest.flatMap (fun e => ", ".toList ++ slotChars e) ++ "]".toList)) := by
  have hitems := toList_textSlots (e :: rest)
  rw [textSlots, List.map_cons, List.map_cons, List.cons_eq_cons] at hitems
  rw [chars, text, textSlots, String.toList_append, String.toList_append, toList_joined, hitems.1,
    hitems.2, List.flatMap_map]
  simp

theorem chars_object_nil : chars (.object [] none) = ['\x7b', '\x7d'] := rfl

theorem chars_object_cons (f : String × Slot Ty) (rest : List (String × Slot Ty)) :
    chars (.object (f :: rest) none) =
      '\x7b' :: ' ' :: (fieldChars f ++
        (rest.flatMap (fun f => "; ".toList ++ fieldChars f) ++ [' ', '\x7d'])) := by
  have hitems := toList_textFields (f :: rest)
  rw [textFields, List.map_cons, List.map_cons, List.cons_eq_cons] at hitems
  rw [chars, text, textFields, textIndex, List.append_nil, braced, String.toList_append,
    String.toList_append, toList_joined, hitems.1, hitems.2, List.flatMap_map]
  · simp
  · simp

theorem chars_array {element : Ty} (h : ∀ members, element ≠ .union members) (readonly : Bool) :
    chars (.array element readonly) =
      markChars readonly.toNat ++ (chars element ++ "[]".toList) := by
  have helement : elementText element (text .type element) = text .type element := by
    cases element with
    | union members => exact absurd rfl (h members)
    | _ => rfl
  rw [chars, text, helement, String.toList_append, String.toList_append, toList_readonlyMark,
    List.append_assoc, chars]

theorem chars_eq_core {t : Ty} (h : ∀ members, t.core ≠ .union members) :
    chars t = markChars t.marks ++ (chars t.core ++ bracketChars t.depth) := by
  induction hn : t.depth generalizing t with
  | zero =>
      have hmarks : t.marks = 0 := Nat.le_zero.mp (hn ▸ marks_le_depth t)
      rw [core_of_depth hn, hmarks]
      exact (List.append_nil _).symm
  | succ n ih =>
      obtain ⟨e, readonly, rfl, he⟩ := eq_array_of_depth hn
      have hunion : ∀ members, e ≠ .union members := by
        rintro members rfl
        exact h members rfl
      rw [chars_array hunion, ih (t := e) h he, marks, markChars_add, core, bracketChars_succ]
      simp only [List.append_assoc]

end Texts

section Reading

/-- The names of the built-in primitive types. -/
def builtinNames : List String :=
  ["string", "number", "boolean", "bigint", "symbol", "null", "undefined", "any", "unknown",
    "never"]

/-- The outermost level of the types that are read here: built-in primitives, string literals,
arrays, tuples, and objects with simple names and without index rule. -/
def Legible : Ty → Prop
  | .primitive name => name ∈ builtinNames
  | .literal (.text _) => True
  | .array _ _ => True
  | .tuple _ => True
  | .object fields none => ∀ f ∈ fields, Simple f.1
  | _ => False

instance (t : Ty) : Decidable t.Legible :=
  match t with
  | .primitive _ => inferInstanceAs (Decidable (_ ∈ _))
  | .literal (.text _) => inferInstanceAs (Decidable True)
  | .literal (.number _) => inferInstanceAs (Decidable False)
  | .literal (.bool _) => inferInstanceAs (Decidable False)
  | .array _ _ => inferInstanceAs (Decidable True)
  | .tuple _ => inferInstanceAs (Decidable True)
  | .object _ none => inferInstanceAs (Decidable (∀ f ∈ _, _))
  | .object _ (some _) => inferInstanceAs (Decidable False)
  | .union _ => inferInstanceAs (Decidable False)
  | .mapped _ => inferInstanceAs (Decidable False)
  | .named _ => inferInstanceAs (Decidable False)
  | .foreign _ => inferInstanceAs (Decidable False)

/-- Types that are made of such types only. -/
def LegibleWithin (t : Ty) : Prop :=
  ∀ u ∈ t.inside, u.Legible

instance (t : Ty) : Decidable t.LegibleWithin :=
  inferInstanceAs (Decidable (∀ u ∈ t.inside, u.Legible))

theorem LegibleWithin.self {t : Ty} (h : t.LegibleWithin) : t.Legible :=
  h t t.self_mem_inside

theorem LegibleWithin.part {p t : Ty} (h : t.LegibleWithin) (hp : p ∈ t.parts) :
    p.LegibleWithin :=
  fun u hu => h u (mem_inside_iff.mpr (Or.inr ⟨p, hp, hu⟩))

theorem LegibleWithin.core {t : Ty} (h : t.LegibleWithin) : t.core.LegibleWithin := by
  induction t using parts_induction with
  | step t ih =>
      cases t with
      | array element readonly =>
          have hpart := List.mem_singleton_self element
          exact ih element hpart (h.part hpart)
      | _ => exact h

theorem LegibleWithin.core_ne_union {t : Ty} (h : t.LegibleWithin) (members : List Ty) :
    t.core ≠ .union members := by
  intro heq
  have hself := h.core.self
  rw [heq] at hself
  exact hself

/-- What a text can start with, besides readonly marks. -/
inductive Start where
  | letter
  | quote
  | bracket
  | brace
  deriving DecidableEq

def Start.ofChar? (c : Char) : Option Start :=
  if c = '\x27' ∨ c = '\x22' then some .quote
  else if c = '[' then some .bracket
  else if c = '\x7b' then some .brace
  else if c = 'r' ∨ c = ']' then none
  else some .letter

def start : Ty → Start
  | .literal _ => .quote
  | .tuple _ => .bracket
  | .object _ _ => .brace
  | _ => .letter

theorem start_chars {t : Ty} (h : t.Legible) (hdepth : t.depth = 0) (r : List Char) :
    (chars t ++ r).head?.bind Start.ofChar? = some t.start := by
  cases t with
  | primitive name =>
      have hnames : ∀ n ∈ builtinNames, n.toList.head?.bind Start.ofChar? = some .letter := by
        decide
      have hhead := hnames name h
      change (name.toList ++ r).head?.bind Start.ofChar? = some .letter
      rw [List.head?_append]
      cases hname : name.toList.head? with
      | none => simp [hname] at hhead
      | some c => simpa [hname] using hhead
  | literal l =>
      cases l with
      | text s =>
          change ((Text.quoted s).toList ++ r).head?.bind Start.ofChar? = some .quote
          rw [Text.toList_quoted]
          exact if_pos (Text.isQuote_quoteMark s.toList)
      | _ => cases h
  | tuple elements =>
      cases elements with
      | nil => rfl
      | cons e rest =>
          rw [chars_tuple_cons]
          rfl
  | object fields index =>
      cases index with
      | some rule => cases h
      | none =>
          cases fields with
          | nil => rfl
          | cons f rest =>
              rw [chars_object_cons]
              rfl
  | array element readonly => cases hdepth
  | _ => cases h

theorem head_core_ne {t : Ty} (h : t.LegibleWithin) {c : Char} (hc : Start.ofChar? c = none)
    (r : List Char) : (chars t.core ++ r).head? ≠ some c := by
  intro hhead
  have hstart := start_chars h.core.self (depth_core t) r
  rw [hhead, Option.bind_some, hc] at hstart
  cases hstart

/-- The text of a type without its arrays can be told from what follows, up to the marks. -/
def ToldApart (t : Ty) : Prop :=
  ∀ (u : Ty) (r r' : List Char), u.LegibleWithin → u.depth = 0 →
    chars t.core ++ r = chars u ++ r' → hoist 0 t.core = hoist 0 u ∧ r = r'

section Positions

variable {t u : Ty} {r r' : List Char}

/-- With arrays, the number of marks in front is known, and so are the brackets. -/
theorem ToldApart.chars_append_inj (htold : t.ToldApart) (ht : t.LegibleWithin)
    (hu : u.LegibleWithin) (hr : r.head? ≠ some '[') (hr' : r'.head? ≠ some '[') {k k' : Nat}
    (h : markChars k ++ (chars t ++ r) = markChars k' ++ (chars u ++ r')) :
    k + t.marks = k' + u.marks ∧ (∀ m, hoist m t = hoist m u) ∧ r = r' := by
  rw [chars_eq_core ht.core_ne_union, chars_eq_core hu.core_ne_union] at h
  simp only [List.append_assoc, ← markChars_add_append] at h
  obtain ⟨hmarks, h⟩ := markChars_append_inj (head_core_ne ht rfl _) (head_core_ne hu rfl _) h
  obtain ⟨hcore, h⟩ := htold u.core _ _ hu.core (depth_core u) h
  obtain ⟨hdepth, h⟩ := bracketChars_append_inj hr hr' h
  exact ⟨hmarks, hoist_congr hdepth hcore, h⟩

theorem optionalMark_append_inj {a b : Char} (ha : a ≠ '?') (hb : b ≠ '?')
    {optional optional' : Bool} (hr : r.head? = some a ∨ r.head? = some b)
    (hr' : r'.head? = some a ∨ r'.head? = some b)
    (h : (optionalMark optional).toList ++ r = (optionalMark optional').toList ++ r') :
    optional = optional' ∧ r = r' := by
  have hne : ∀ s : List Char, s.head? = some a ∨ s.head? = some b → s.head? ≠ some '?' := by
    rintro s (hs | hs) hq
    · exact ha (Option.some.inj (hs.symm.trans hq))
    · exact hb (Option.some.inj (hs.symm.trans hq))
  cases optional with
  | false =>
      cases optional' with
      | false => exact ⟨rfl, h⟩
      | true => exact absurd (congrArg List.head? h) (hne r hr)
  | true =>
      cases optional' with
      | false => exact absurd (congrArg List.head? h).symm (hne r' hr')
      | true => exact ⟨rfl, List.append_cancel_left h⟩

theorem head_optionalMark_ne {c : Char} (hc : c ≠ '?') (hr : r.head? ≠ some c) (optional : Bool) :
    ((optionalMark optional).toList ++ r).head? ≠ some c := by
  cases optional with
  | false => exact hr
  | true =>
      intro h
      exact hc (Option.some.inj h).symm

theorem slotChars_append_inj {s s' : Slot Ty} (htold : s.type.ToldApart)
    (hs : s.type.LegibleWithin) (hs' : s'.type.LegibleWithin)
    (hr : r.head? = some ',' ∨ r.head? = some ']')
    (hr' : r'.head? = some ',' ∨ r'.head? = some ']')
    (h : slotChars s ++ r = slotChars s' ++ r') : hoistSlot s = hoistSlot s' ∧ r = r' := by
  have hopen : ∀ {l : List Char}, l.head? = some ',' ∨ l.head? = some ']' → l.head? ≠ some '[' := by
    rintro l (hl | hl) <;> simp [hl]
  simp only [slotChars, List.append_assoc] at h
  obtain ⟨hmarks, htypes, h⟩ := htold.chars_append_inj hs hs'
    (head_optionalMark_ne (by decide) (hopen hr) s.optional)
    (head_optionalMark_ne (by decide) (hopen hr') s'.optional) h
  obtain ⟨hoptional, h⟩ := optionalMark_append_inj (by decide) (by decide) hr hr' h
  refine ⟨?_, h⟩
  rw [hoistSlot, hoistSlot, hmarks, htypes, hoptional]

theorem head_slotChars_ne {s : Slot Ty} (hs : s.type.LegibleWithin) (r : List Char) :
    (slotChars s ++ r).head? ≠ some ']' := by
  rw [slotChars, chars_eq_core hs.core_ne_union]
  simp only [List.append_assoc, ← markChars_add_append]
  cases s.readonly.toNat + s.type.marks with
  | zero => exact head_core_ne hs rfl _
  | succ m =>
      intro h
      exact absurd (Option.some.inj h) (by decide)

theorem fieldChars_append_inj {f f' : String × Slot Ty} (htold : f.2.type.ToldApart)
    (hf : f.2.type.LegibleWithin) (hf' : f'.2.type.LegibleWithin) (hname : Simple f.1)
    (hname' : Simple f'.1) (hr : r.head? = some ';' ∨ r.head? = some ' ')
    (hr' : r'.head? = some ';' ∨ r'.head? = some ' ')
    (h : fieldChars f ++ r = fieldChars f' ++ r') : hoistField f = hoistField f' ∧ r = r' := by
  have hopen : ∀ {l : List Char}, l.head? = some ';' ∨ l.head? = some ' ' → l.head? ≠ some '[' := by
    rintro l (hl | hl) <;> simp [hl]
  have hmark : ∀ (optional : Bool) (l : List Char),
      ((optionalMark optional).toList ++ (": ".toList ++ l)).head? = some '?' ∨
        ((optionalMark optional).toList ++ (": ".toList ++ l)).head? = some ':' := by
    intro optional l
    cases optional with
    | false => exact Or.inr rfl
    | true => exact Or.inl rfl
  simp only [fieldChars, List.append_assoc] at h
  obtain ⟨hreadonly, hnames, h⟩ := label_append_inj hname hname' (hmark _ _) (hmark _ _) h
  obtain ⟨hoptional, h⟩ := optionalMark_append_inj (a := ':') (b := ':') (by decide) (by decide)
    (Or.inl rfl) (Or.inl rfl) h
  have htext : markChars 0 ++ (chars f.2.type ++ r) = markChars 0 ++ (chars f'.2.type ++ r') :=
    List.append_cancel_left h
  obtain ⟨hmarks, htypes, h⟩ := htold.chars_append_inj hf hf' (hopen hr) (hopen hr') htext
  rw [Nat.zero_add, Nat.zero_add] at hmarks
  refine ⟨?_, h⟩
  rw [hoistField, hoistField, hoisted, hoisted, hnames, hreadonly, hoptional, hmarks, htypes]

theorem builtin_append_inj {name name' : String} (hname : name ∈ builtinNames)
    (hname' : name' ∈ builtinNames) (h : name.toList ++ r = name'.toList ++ r') :
    name = name' ∧ r = r' := by
  have hfree : ∀ n ∈ builtinNames, ∀ n' ∈ builtinNames, n.toList <+: n'.toList → n = n' := by
    decide +kernel
  have hnames : name = name' := by
    have hprefix : name'.toList <+: name.toList ++ r := ⟨r', h.symm⟩
    rcases List.prefix_or_prefix_of_prefix (List.prefix_append name.toList r) hprefix with hp | hp
    · exact hfree name hname name' hname' hp
    · exact (hfree name' hname' name hname hp).symm
  subst hnames
  exact ⟨rfl, List.append_cancel_left h⟩

theorem tuple_append_inj {elements elements' : List (Slot Ty)}
    (htold : ∀ e ∈ elements, e.type.ToldApart) (hlegible : ∀ e ∈ elements, e.type.LegibleWithin)
    (hlegible' : ∀ e ∈ elements', e.type.LegibleWithin)
    (h : chars (.tuple elements) ++ r = chars (.tuple elements') ++ r') :
    elements.map hoistSlot = elements'.map hoistSlot ∧ r = r' := by
  cases elements with
  | nil =>
      cases elements' with
      | nil => exact ⟨rfl, List.append_cancel_left h⟩
      | cons e' rest' =>
          rw [chars_tuple_nil, chars_tuple_cons, List.cons_append, List.append_assoc] at h
          exact absurd (congrArg List.head? (List.cons_eq_cons.mp h).2).symm
            (head_slotChars_ne (hlegible' e' List.mem_cons_self) _)
  | cons e rest =>
      cases elements' with
      | nil =>
          rw [chars_tuple_nil, chars_tuple_cons, List.cons_append, List.append_assoc] at h
          exact absurd (congrArg List.head? (List.cons_eq_cons.mp h).2)
            (head_slotChars_ne (hlegible e List.mem_cons_self) _)
      | cons e' rest' =>
          rw [chars_tuple_cons, chars_tuple_cons] at h
          refine flatMap_append_inj (f := slotChars) ',' ']' [' '] [] (by decide) ?_
            (by simpa using (List.cons_eq_cons.mp h).2)
          intro x hx y hy s s' hs hs' hxy
          exact slotChars_append_inj (htold x hx) (hlegible x hx) (hlegible' y hy) hs hs' hxy

theorem object_append_inj {fields fields' : List (String × Slot Ty)}
    (htold : ∀ f ∈ fields, f.2.type.ToldApart)
    (hlegible : ∀ f ∈ fields, f.2.type.LegibleWithin ∧ Simple f.1)
    (hlegible' : ∀ f ∈ fields', f.2.type.LegibleWithin ∧ Simple f.1)
    (h : chars (.object fields none) ++ r = chars (.object fields' none) ++ r') :
    fields.map hoistField = fields'.map hoistField ∧ r = r' := by
  cases fields with
  | nil =>
      cases fields' with
      | nil => exact ⟨rfl, List.append_cancel_left h⟩
      | cons f' rest' =>
          rw [chars_object_nil, chars_object_cons] at h
          exact absurd h (by simp)
  | cons f rest =>
      cases fields' with
      | nil =>
          rw [chars_object_nil, chars_object_cons] at h
          exact absurd h (by simp)
      | cons f' rest' =>
          rw [chars_object_cons, chars_object_cons] at h
          refine flatMap_append_inj (f := fieldChars) ';' ' ' [' '] ['\x7d'] (by decide) ?_
            (by simpa using h)
          intro x hx y hy s s' hs hs' hxy
          exact fieldChars_append_inj (htold x hx) (hlegible x hx).1 (hlegible' y hy).1
            (hlegible x hx).2 (hlegible' y hy).2 hs hs' hxy

theorem Legible.cases (h : t.Legible) (hdepth : t.depth = 0) :
    (∃ name ∈ builtinNames, t = .primitive name) ∨ (∃ s, t = .literal (.text s)) ∨
      (∃ elements, t = .tuple elements) ∨
      ∃ fields, t = .object fields none ∧ ∀ f ∈ fields, Simple f.1 := by
  cases t with
  | primitive name => exact Or.inl ⟨name, h, rfl⟩
  | literal l =>
      cases l with
      | text s => exact Or.inr (Or.inl ⟨s, rfl⟩)
      | _ => cases h
  | tuple elements => exact Or.inr (Or.inr (Or.inl ⟨elements, rfl⟩))
  | object fields index =>
      cases index with
      | none => exact Or.inr (Or.inr (Or.inr ⟨fields, rfl, h⟩))
      | some rule => cases h
  | array element readonly => cases hdepth
  | _ => cases h

end Positions

theorem toldApart {t : Ty} (ht : t.LegibleWithin) : t.ToldApart := by
  induction t using parts_induction with
  | step t ih =>
      have htold : ∀ p ∈ t.parts, p.ToldApart := fun p hp => ih p hp (ht.part hp)
      cases hdepth : t.depth with
      | succ n =>
          obtain ⟨e, readonly, rfl, -⟩ := eq_array_of_depth hdepth
          exact htold e (List.mem_singleton_self e)
      | zero =>
          intro u r r' hu hdepth' h
          rw [core_of_depth hdepth] at h ⊢
          -- The first character tells which of the four kinds both types are of.
          have hstart : t.start = u.start := by
            have heads := congrArg (fun l => l.head?.bind Start.ofChar?) h
            simpa only [start_chars ht.self hdepth, start_chars hu.self hdepth', Option.some.injEq]
              using heads
          rcases ht.self.cases hdepth with
            ⟨name, hname, rfl⟩ | ⟨s, rfl⟩ | ⟨elements, rfl⟩ | ⟨fields, rfl, hsimple⟩ <;>
          rcases hu.self.cases hdepth' with
            ⟨name', hname', rfl⟩ | ⟨s', rfl⟩ | ⟨elements', rfl⟩ | ⟨fields', rfl, hsimple'⟩
          case inl.inl =>
            obtain ⟨rfl, hr⟩ := builtin_append_inj hname hname' h
            exact ⟨rfl, hr⟩
          case inr.inl.inr.inl =>
            obtain ⟨rfl, hr⟩ := Text.quoted_append_inj h
            exact ⟨rfl, hr⟩
          case inr.inr.inl.inr.inr.inl =>
            have hparts : ∀ e ∈ elements, e.type ∈ (Ty.tuple elements).parts :=
              fun e he => List.mem_map_of_mem he
            have hparts' : ∀ e ∈ elements', e.type ∈ (Ty.tuple elements').parts :=
              fun e he => List.mem_map_of_mem he
            obtain ⟨hslots, hr⟩ := tuple_append_inj (fun e he => htold _ (hparts e he))
              (fun e he => ht.part (hparts e he)) (fun e he => hu.part (hparts' e he)) h
            exact ⟨by rw [hoist, hoist, hoistSlots_eq, hoistSlots_eq, hslots], hr⟩
          case inr.inr.inr.inr.inr.inr =>
            have hparts : ∀ f ∈ fields, f.2.type ∈ (Ty.object fields none).parts :=
              fun f hf => mem_parts_of_mem_fields hf
            have hparts' : ∀ f ∈ fields', f.2.type ∈ (Ty.object fields' none).parts :=
              fun f hf => mem_parts_of_mem_fields hf
            obtain ⟨hfields, hr⟩ := object_append_inj (fun f hf => htold _ (hparts f hf))
              (fun f hf => ⟨ht.part (hparts f hf), hsimple f hf⟩)
              (fun f hf => ⟨hu.part (hparts' f hf), hsimple' f hf⟩) h
            exact ⟨by rw [hoist, hoist, hoistFields_eq, hoistFields_eq, hfields], hr⟩
          all_goals cases hstart

end Reading

section Marks

theorem hoist_ne_union {t : Ty} (h : ∀ members, t ≠ .union members) (m : Nat) (members : List Ty) :
    hoist m t ≠ .union members := by
  cases t with
  | union members' => exact absurd rfl (h members')
  | _ => simp [hoist]

theorem chars_hoist {t : Ty} (h : t.LegibleWithin) (hcore : chars (hoist 0 t.core) = chars t.core)
    {m : Nat} (hm : m ≤ t.depth) :
    chars (hoist m t) = markChars m ++ (chars t.core ++ bracketChars t.depth) := by
  have hunion : ∀ members, (hoist m t).core ≠ .union members := by
    rw [core_hoist]
    exact hoist_ne_union h.core_ne_union 0
  rw [chars_eq_core hunion, marks_hoist hm, core_hoist, depth_hoist, hcore]

theorem slotChars_hoistSlot {s : Slot Ty} (h : s.type.LegibleWithin)
    (hcore : chars (hoist 0 s.type.core) = chars s.type.core) :
    slotChars (hoistSlot s) = slotChars s := by
  have hle := marks_le_depth s.type
  have hflag := s.readonly.toNat_le
  rw [slotChars, slotChars, hoistSlot, chars_hoist h hcore (by omega),
    chars_eq_core h.core_ne_union]
  simp only [List.append_assoc, ← markChars_add_append]
  cases s.readonly.toNat + s.type.marks with
  | zero => rfl
  | succ m => simp [Nat.add_comm]

theorem chars_tuple_congr {elements elements' : List (Slot Ty)}
    (h : elements.map slotChars = elements'.map slotChars) :
    chars (.tuple elements) = chars (.tuple elements') := by
  rw [← toList_textSlots, ← toList_textSlots] at h
  have hitems := List.map_injective_iff.mpr (fun _ _ => String.toList_injective) h
  rw [chars, chars, text, text, hitems]

theorem chars_object_congr {fields fields' : List (String × Slot Ty)}
    (h : fields.map fieldChars = fields'.map fieldChars) :
    chars (.object fields none) = chars (.object fields' none) := by
  rw [← toList_textFields, ← toList_textFields] at h
  have hitems := List.map_injective_iff.mpr (fun _ _ => String.toList_injective) h
  rw [chars, chars, text, text, hitems]

theorem chars_hoist_core {t : Ty} (h : t.LegibleWithin) :
    chars (hoist 0 t.core) = chars t.core := by
  induction t using parts_induction with
  | step t ih =>
      cases hdepth : t.depth with
      | succ n =>
          obtain ⟨e, readonly, rfl, -⟩ := eq_array_of_depth hdepth
          exact ih e (List.mem_singleton_self e) (h.part (List.mem_singleton_self e))
      | zero =>
          rw [core_of_depth hdepth]
          rcases h.self.cases hdepth with
            ⟨name, -, rfl⟩ | ⟨s, rfl⟩ | ⟨elements, rfl⟩ | ⟨fields, rfl, -⟩
          · rfl
          · rfl
          · rw [hoist, hoistSlots_eq]
            apply chars_tuple_congr
            rw [List.map_map]
            apply List.map_congr_left
            intro e he
            have hpart : e.type ∈ (Ty.tuple elements).parts := List.mem_map_of_mem he
            exact slotChars_hoistSlot (h.part hpart) (ih _ hpart (h.part hpart))
          · rw [hoist, hoistFields_eq]
            apply chars_object_congr
            rw [List.map_map]
            apply List.map_congr_left
            intro f hf
            have hpart : f.2.type ∈ (Ty.object fields none).parts := mem_parts_of_mem_fields hf
            have htext : chars f.2.type.hoisted = chars f.2.type := by
              rw [hoisted, chars_hoist (h.part hpart) (ih _ hpart (h.part hpart))
                (marks_le_depth _), ← chars_eq_core (h.part hpart).core_ne_union]
            simp only [Function.comp_apply, hoistField, fieldChars, htext]

theorem chars_hoisted {t : Ty} (h : t.LegibleWithin) : chars t.hoisted = chars t := by
  rw [hoisted, chars_hoist h (chars_hoist_core h) (marks_le_depth t),
    ← chars_eq_core h.core_ne_union]

theorem text_eq_iff {a b : Ty} (ha : a.LegibleWithin) (hb : b.LegibleWithin) :
    text .type a = text .type b ↔ a.hoisted = b.hoisted := by
  constructor
  · intro h
    have hchars : markChars 0 ++ (chars a ++ []) = markChars 0 ++ (chars b ++ []) := by
      rw [chars, chars, h]
    obtain ⟨hmarks, hhoist, -⟩ := (toldApart ha).chars_append_inj ha hb (by simp) (by simp) hchars
    rw [Nat.zero_add, Nat.zero_add] at hmarks
    rw [hoisted, hoisted, hmarks, hhoist]
  · intro h
    apply String.toList_injective
    change chars a = chars b
    rw [← chars_hoisted ha, h, chars_hoisted hb]

theorem LegibleWithin.textFault?_eq {t : Ty} (h : t.LegibleWithin) : textFault? .type t = none := by
  induction t using parts_induction with
  | step t ih =>
      cases hfault : textFault? .type t with
      | none => rfl
      | some fault =>
          rcases render_eq_error (textOrFault_eq_error.mpr hfault) with
            ⟨v, rfl⟩ | ⟨p, hp, hpart⟩ | ⟨o, r, rfl, hr, -⟩
          · exact h.self.elim
          · have hnone := ih p hp (h.part hp)
            rw [textOrFault_eq_error.mp hpart] at hnone
            cases hnone
          · have hself := h.self
            rw [ObjectTy.toTy, hr] at hself
            exact hself.elim

theorem LegibleWithin.render_eq {t : Ty} (h : t.LegibleWithin) : t.render = .ok (text .type t) := by
  rw [render, textOrFault, h.textFault?_eq]

/-- Types of built-in primitives, string literals, arrays, tuples and objects have the same text
exactly when they differ only in the places of readonly marks that stand together. In particular,
where readonly arrays stand in readonly places only, types with the same text are equal. -/
theorem render_eq_iff {a b : Ty} (ha : a.WellFormed) (hlegible : a.LegibleWithin)
    (hlegible' : b.LegibleWithin) :
    (∃ s, a.render = .ok s) ∧ (a.render = b.render ↔ a.hoisted = b.hoisted) ∧
      (a.MarksOutward → b.MarksOutward → a.render = b.render → a == b) := by
  have hiff : a.render = b.render ↔ a.hoisted = b.hoisted := by
    rw [hlegible.render_eq, hlegible'.render_eq, Except.ok.injEq, text_eq_iff hlegible hlegible']
  refine ⟨⟨_, hlegible.render_eq⟩, hiff, fun hmarks hmarks' h => ?_⟩
  have heq : a = b := by
    rw [← hmarks.hoisted_eq, hiff.mp h, hmarks'.hoisted_eq]
  rw [← heq]
  exact beq_refl ha

/-- An array of readonly arrays reads like a readonly array of arrays, and a tuple of a readonly
array like one with a readonly position. -/
theorem render_nested_marks :
    (array (array string true) false).render = (array (array string false) true).render ∧
      (array (array string true) false == array (array string false) true) = false ∧
      (tuple [⟨array string true, false, false⟩]).render =
        (tuple [⟨array string false, true, false⟩]).render ∧
      (tuple [⟨array string true, false, false⟩] ==
        tuple [⟨array string false, true, false⟩]) = false :=
  ⟨rfl, rfl, rfl, rfl⟩

/-- A record with a quoted title, rows of cells and an optional note. The flags say whether the
rows, the cells in them, and the position of the note are readonly. -/
def sheet (rows cells place : Bool) : Ty :=
  .object
    [("title", ⟨.literal (.text "it's \"new\"\n"), true, false⟩),
      ("rows", ⟨.array (.array (.primitive "number") cells) rows, false, false⟩),
      ("note", ⟨.tuple [⟨.array string !place, place, false⟩, ⟨.object [] none, false, true⟩],
        false, true⟩)]
    none

theorem render_eq_iff_sheet :
    (∃ s, (sheet true false true).render = .ok s) ∧
      (sheet true false true).render = (sheet false true true).render ∧
      (sheet true false true).render = (sheet true false false).render ∧
      (sheet true false true).render ≠ (sheet true true true).render := by
  have hwell : (sheet true false true).WellFormed := by decide
  have hlegible : ∀ rows cells place, (sheet rows cells place).LegibleWithin := by decide
  obtain ⟨htext, hiff, -⟩ :=
    render_eq_iff hwell (hlegible true false true) (hlegible false true true)
  obtain ⟨-, hiff', -⟩ :=
    render_eq_iff hwell (hlegible true false true) (hlegible true false false)
  obtain ⟨-, -, hequal⟩ :=
    render_eq_iff hwell (hlegible true false true) (hlegible true true true)
  refine ⟨htext, hiff.mpr rfl, hiff'.mpr rfl, fun h => ?_⟩
  exact absurd (hequal (by decide) (by decide) h) (by decide)

end Marks

end Ty

end StructuralTypes
