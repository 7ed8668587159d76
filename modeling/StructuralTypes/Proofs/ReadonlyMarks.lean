import StructuralTypes.Proofs.WellFormed

namespace StructuralTypes

namespace Ty

/-- The number of readonly arrays among an array and the arrays that it is made of. -/
def marks : Ty → Nat
  | .array element readonly => readonly.toNat + marks element
  | _ => 0

def depth : Ty → Nat
  | .array element _ => depth element + 1
  | _ => 0

/-- What is left of a type when its arrays are taken off. -/
def core : Ty → Ty
  | .array element _ => core element
  | t => t

theorem marks_le_depth (t : Ty) : t.marks ≤ t.depth := by
  induction t using parts_induction with
  | step t ih =>
      cases t with
      | array element readonly =>
          have hle := ih element (List.mem_singleton_self element)
          have hflag := readonly.toNat_le
          simp only [marks, depth]
          omega
      | _ => exact le_rfl

mutual

/-- The type with the given number of readonly arrays, the outermost ones, and with all marks inside
moved outward as far as the text cannot tell. -/
def hoist : Nat → Ty → Ty
  | m, .array element _ => .array (hoist (m - 1) element) (m != 0)
  | _, .tuple elements => .tuple (hoistSlots elements)
  | _, .object fields index => .object (hoistFields fields) index
  | _, t => t
termination_by structural _ t => t

def hoistSlots : List (Slot Ty) → List (Slot Ty)
  | [] => []
  | ⟨t, readonly, optional⟩ :: rest =>
    ⟨hoist (readonly.toNat + marks t - 1) t, readonly.toNat + marks t != 0, optional⟩ ::
      hoistSlots rest
termination_by structural elements => elements

def hoistFields : List (String × Slot Ty) → List (String × Slot Ty)
  | [] => []
  | (name, ⟨t, readonly, optional⟩) :: rest =>
    (name, ⟨hoist (marks t) t, readonly, optional⟩) :: hoistFields rest
termination_by structural fields => fields

end

/-- The type with its readonly marks moved outward. -/
def hoisted (t : Ty) : Ty :=
  hoist t.marks t

def hoistSlot (s : Slot Ty) : Slot Ty :=
  ⟨hoist (s.readonly.toNat + marks s.type - 1) s.type, s.readonly.toNat + marks s.type != 0,
    s.optional⟩

def hoistField (f : String × Slot Ty) : String × Slot Ty :=
  (f.1, ⟨hoisted f.2.type, f.2.readonly, f.2.optional⟩)

theorem hoistSlots_eq (elements : List (Slot Ty)) :
    hoistSlots elements = elements.map hoistSlot := by
  induction elements with
  | nil => rfl
  | cons e rest ih => rw [hoistSlots, ih, List.map_cons, hoistSlot]

theorem hoistFields_eq (fields : List (String × Slot Ty)) :
    hoistFields fields = fields.map hoistField := by
  induction fields with
  | nil => rfl
  | cons f rest ih => rw [hoistFields, ih, List.map_cons, hoistField, hoisted]

theorem eq_array_of_depth {t : Ty} {n : Nat} (h : t.depth = n + 1) :
    ∃ element readonly, t = .array element readonly ∧ element.depth = n := by
  cases t with
  | array element readonly => exact ⟨element, readonly, rfl, Nat.succ.inj h⟩
  | _ => cases h

theorem core_of_depth {t : Ty} (h : t.depth = 0) : t.core = t := by
  cases t with
  | array element readonly => cases h
  | _ => rfl

theorem depth_core (t : Ty) : t.core.depth = 0 := by
  induction hn : t.depth generalizing t with
  | zero => rw [core_of_depth hn, hn]
  | succ n ih =>
      obtain ⟨e, readonly, rfl, he⟩ := eq_array_of_depth hn
      exact ih e he

theorem hoist_of_depth {t : Ty} (h : t.depth = 0) (m : Nat) : hoist m t = hoist 0 t := by
  cases t with
  | array element readonly => cases h
  | _ => rfl

theorem hoist_congr {t u : Ty} (hdepth : t.depth = u.depth)
    (hcore : hoist 0 t.core = hoist 0 u.core) (m : Nat) : hoist m t = hoist m u := by
  induction hn : t.depth generalizing t u m with
  | zero =>
      have hu : u.depth = 0 := hdepth.symm.trans hn
      rw [hoist_of_depth hn, hoist_of_depth hu]
      rwa [core_of_depth hn, core_of_depth hu] at hcore
  | succ n ih =>
      obtain ⟨e, readonly, rfl, he⟩ := eq_array_of_depth hn
      obtain ⟨e', readonly', rfl, he'⟩ := eq_array_of_depth (hdepth.symm.trans hn)
      rw [hoist, hoist, ih (he.trans he'.symm) hcore (m - 1) he]

theorem depth_hoist (m : Nat) (t : Ty) : (hoist m t).depth = t.depth := by
  induction hn : t.depth generalizing t m with
  | zero =>
      cases t with
      | array element readonly => cases hn
      | _ => rfl
  | succ n ih =>
      obtain ⟨e, readonly, rfl, he⟩ := eq_array_of_depth hn
      rw [hoist, depth, ih (m - 1) e he]

theorem core_hoist (m : Nat) (t : Ty) : (hoist m t).core = hoist 0 t.core := by
  induction hn : t.depth generalizing t m with
  | zero =>
      rw [core_of_depth hn, core_of_depth ((depth_hoist m t).trans hn), hoist_of_depth hn]
  | succ n ih =>
      obtain ⟨e, readonly, rfl, he⟩ := eq_array_of_depth hn
      exact ih (m - 1) e he

theorem marks_hoist {m : Nat} {t : Ty} (h : m ≤ t.depth) : (hoist m t).marks = m := by
  induction hn : t.depth generalizing t m with
  | zero =>
      have hm : m = 0 := by omega
      have hmarks := marks_le_depth (hoist m t)
      rw [depth_hoist] at hmarks
      omega
  | succ n ih =>
      obtain ⟨e, readonly, rfl, he⟩ := eq_array_of_depth hn
      rw [hoist, marks, ih (by omega) he]
      cases m with
      | zero => rfl
      | succ m => simp [Nat.add_comm]

def isReadonlyArray : Ty → Bool
  | .array _ true => true
  | _ => false

/-- A readonly array that is the element of an array, or stands in a tuple, stands in a readonly
place. -/
def MarksOutside : Ty → Prop
  | .array element readonly => element.isReadonlyArray = true → readonly = true
  | .tuple elements => ∀ e ∈ elements, e.type.isReadonlyArray = true → e.readonly = true
  | _ => True

instance (t : Ty) : Decidable t.MarksOutside :=
  match t with
  | .array _ _ => inferInstanceAs (Decidable (_ → _))
  | .tuple _ => inferInstanceAs (Decidable (∀ e ∈ _, _))
  | .primitive _ => inferInstanceAs (Decidable True)
  | .literal _ => inferInstanceAs (Decidable True)
  | .object _ _ => inferInstanceAs (Decidable True)
  | .union _ => inferInstanceAs (Decidable True)
  | .mapped _ => inferInstanceAs (Decidable True)
  | .named _ => inferInstanceAs (Decidable True)
  | .foreign _ => inferInstanceAs (Decidable True)

/-- All readonly marks of a type are as far outside as they can be. -/
def MarksOutward (t : Ty) : Prop :=
  ∀ u ∈ t.inside, u.MarksOutside

instance (t : Ty) : Decidable t.MarksOutward :=
  inferInstanceAs (Decidable (∀ u ∈ t.inside, u.MarksOutside))

theorem MarksOutward.self {t : Ty} (h : t.MarksOutward) : t.MarksOutside :=
  h t t.self_mem_inside

theorem MarksOutward.part {p t : Ty} (h : t.MarksOutward) (hp : p ∈ t.parts) : p.MarksOutward :=
  fun u hu => h u (mem_inside_iff.mpr (Or.inr ⟨p, hp, hu⟩))

theorem MarksOutward.marks_eq_zero {t : Ty} (h : t.MarksOutward)
    (hplain : ¬ t.isReadonlyArray = true) : t.marks = 0 := by
  induction hn : t.depth generalizing t with
  | zero => exact Nat.le_zero.mp (hn ▸ marks_le_depth t)
  | succ n ih =>
      obtain ⟨e, readonly, rfl, he⟩ := eq_array_of_depth hn
      cases readonly with
      | true => exact absurd rfl hplain
      | false =>
          have helement : ¬ e.isReadonlyArray = true :=
            fun hmarked => Bool.false_ne_true (h.self hmarked)
          rw [marks, ih (h.part (List.mem_singleton_self e)) helement he]
          rfl

theorem MarksOutward.place {t : Ty} (h : t.MarksOutward) {readonly : Bool}
    (hplace : t.isReadonlyArray = true → readonly = true) :
    (readonly.toNat + t.marks != 0) = readonly ∧ readonly.toNat + t.marks - 1 = t.marks := by
  cases readonly with
  | true => simp
  | false =>
      have hmarks := h.marks_eq_zero fun hmarked => Bool.false_ne_true (hplace hmarked)
      simp [hmarks]

theorem MarksOutward.hoisted_eq {t : Ty} (h : t.MarksOutward) : t.hoisted = t := by
  induction t using parts_induction with
  | step t ih =>
      have hpart : ∀ p ∈ t.parts, hoist p.marks p = p := fun p hp => ih p hp (h.part hp)
      cases t with
      | array element readonly =>
          have helement := List.mem_singleton_self element
          obtain ⟨hmark, hrest⟩ := (h.part helement).place h.self
          rw [hoisted, hoist, marks, hmark, hrest, hpart element helement]
      | tuple elements =>
          rw [hoisted, hoist, hoistSlots_eq]
          congr 1
          refine (List.map_congr_left fun e he => ?_).trans elements.map_id
          have htype : e.type ∈ (Ty.tuple elements).parts := List.mem_map_of_mem he
          obtain ⟨hmark, hrest⟩ := (h.part htype).place (h.self e he)
          rw [hoistSlot, hmark, hrest, hpart e.type htype, id]
      | object fields index =>
          rw [hoisted, hoist, hoistFields_eq]
          congr 1
          refine (List.map_congr_left fun f hf => ?_).trans fields.map_id
          have htype : f.2.type ∈ (Ty.object fields index).parts := mem_parts_of_mem_fields hf
          rw [hoistField, hoisted, hpart f.2.type htype, id]
      | _ => rfl

end Ty

end StructuralTypes
