import StructuralTypes.Proofs.Plain

/-!
What plain types mean. Values are atoms, records and lists, and a type has the values that its
structure admits, by finite derivations. Assignability is sound for this meaning: a value of the
source is a value of the target. Types may be recursive, and pairs of them are compared under
assumptions; the proof goes by the derivation that the value is one of the source.
-/

namespace StructuralTypes

/-- The values without parts. A text, a number and a truth value are what literals are; of any other
primitive type there are atoms that carry its name only. -/
inductive Atom where
  | literal (value : Literal)
  | other (name : String)
      (h : name ∉ ["string", "number", "boolean", "any", "unknown", "never"])

/-- The name of the primitive type of an atom. -/
def Atom.tag : Atom → String
  | .literal l => l.kind
  | .other name _ => name

theorem Atom.tag_ne_never (a : Atom) : a.tag ≠ "never" := by
  cases a with
  | literal l => cases l <;> simp [Atom.tag, Literal.kind]
  | other name h =>
      rintro rfl
      simp at h

inductive Datum where
  | atom (a : Atom)
  | record (fields : List (String × Datum))
  | list (items : List Datum)

namespace Declarations

/-- The values of a plain type. Readonly flags make no difference. -/
inductive Inhabits (d : Declarations) : Datum → Ty → Prop
  | unknown (v : Datum) : Inhabits d v (.primitive "unknown")
  | primitive {a : Atom} {name : String} (h : a.tag = name) :
      Inhabits d (.atom a) (.primitive name)
  | literal {l m : Literal} (h : l.same m = true) : Inhabits d (.atom (.literal l)) (.literal m)
  | object {record : List (String × Datum)} {fields : List (String × Slot Ty)}
      (present : ∀ f ∈ fields, f.1 ∈ Assoc.names record)
      (h : ∀ f ∈ fields, ∀ v, record.lookup f.1 = some v → Inhabits d v f.2.type) :
      Inhabits d (.record record) (.object fields none)
  | array {items : List Datum} {element : Ty} {readonly : Bool}
      (h : ∀ v ∈ items, Inhabits d v element) : Inhabits d (.list items) (.array element readonly)
  | tuple {items : List Datum} {elements : List (Slot Ty)}
      (least : Ty.requiredCount elements ≤ items.length) (most : items.length ≤ elements.length)
      (h : ∀ p ∈ items.zip elements, Inhabits d p.1 p.2.type) :
      Inhabits d (.list items) (.tuple elements)
  | union {v : Datum} {members : List Ty} {m : Ty} (hm : m ∈ members) (h : Inhabits d v m) :
      Inhabits d v (.union members)
  | mapped {v : Datum} {entries : List (String × Slot Ty)}
      (h : Inhabits d v (.object entries none)) : Inhabits d v (.mapped entries)
  | named {v : Datum} {name : String} {t : Ty} (ht : d.resolve (.named name) = .ok t)
      (h : Inhabits d v t) : Inhabits d v (.named name)

variable {d : Declarations} {v : Datum} {s t x : Ty}

theorem Inhabits.ne_never (h : d.Inhabits v t) : t ≠ .primitive "never" := by
  cases h with
  | @primitive a _ h =>
      rintro ⟨⟩
      exact a.tag_ne_never h
  | _ => simp

theorem Inhabits.of_standsFor (hx : d.StandsFor t x) (h : d.Inhabits v x) : d.Inhabits v t := by
  obtain ⟨t', ht', -, rfl⟩ := hx
  have h' : d.Inhabits v t' := by
    cases t' with
    | mapped entries => exact .mapped h
    | _ => exact h
  cases t with
  | named name => exact .named ht' h'
  | _ =>
      cases ht'
      exact h'

theorem Inhabits.of_beq (hs : s.WellFormed) (ht : t.WellFormed) (hst : s == t)
    (h : d.Inhabits v s) : d.Inhabits v t := by
  induction h generalizing t with
  | unknown v =>
      cases Ty.alike_of_beq hst
      exact .unknown v
  | primitive h =>
      cases Ty.alike_of_beq hst
      exact .primitive h
  | @literal l m h =>
      cases Ty.alike_of_beq hst with
      | @literal _ k h' =>
          have hbeq : Ty.literal l == Ty.literal k :=
            Ty.beq_trans (Ty.Alike.literal h).beq (Ty.Alike.literal h').beq
          cases Ty.alike_of_beq hbeq with
          | literal h => exact .literal h
  | object present h ih =>
      cases Ty.alike_of_beq hst with
      | object length alike index =>
          cases index
          refine .object ?_ ?_
          · rintro ⟨name, t⟩ hf
            obtain ⟨s, hmem, -⟩ := alike.exists_of_mem hs.names_nodup ht.names_nodup length hf
            exact present (name, s) hmem
          · rintro ⟨name, t⟩ hf v hv
            obtain ⟨s, hmem, hslot⟩ := alike.exists_of_mem hs.names_nodup ht.names_nodup length hf
            exact ih (name, s) hmem v hv (hs.part (Ty.mem_parts_of_mem_fields hmem))
              (ht.part (Ty.mem_parts_of_mem_fields hf)) hslot.type
  | array h ih =>
      cases Ty.alike_of_beq hst with
      | array readonly helement =>
          exact .array fun v hv =>
            ih v hv (hs.part (by simp [Ty.parts])) (ht.part (by simp [Ty.parts])) helement
  | tuple least most h ih =>
      cases Ty.alike_of_beq hst with
      | tuple hslots =>
          refine .tuple ?_ ?_ ?_
          · rwa [← Assignability.requiredCount_congr (fun _ _ h => h.optional) hslots]
          · rwa [← hslots.length_eq]
          · intro p' hp'
            obtain ⟨p, hp, heq, hslot⟩ := Assignability.exists_mem_zip_of_forall₂
              (P := Eq) (List.forall₂_refl _) hslots p' hp'
            rw [← heq]
            exact ih p hp (hs.part (List.mem_map_of_mem (List.of_mem_zip hp).2))
              (ht.part (List.mem_map_of_mem (List.of_mem_zip hp').2)) hslot.type
  | union hm h ih =>
      cases Ty.alike_of_beq hst with
      | union forth _ =>
          obtain ⟨m', hm', hbeq⟩ := forth _ hm
          exact .union hm' (ih (hs.part hm) (ht.part hm') hbeq)
  | mapped h ih =>
      cases Ty.alike_of_beq hst with
      | mapped length alike =>
          exact .mapped (ih hs.expanded ht.expanded (Ty.Alike.object length alike .none).beq)
  | named hr h ih =>
      cases Ty.alike_of_beq hst
      exact .named hr h

end Declarations

namespace Assignability

open Declarations

variable {setting : Setting} {v : Datum} {s t x : Ty}

/-- A value of a structure that is no union is a value of all that the structure fits, if it is one
of all that the structure fits by the rules for matching kinds. -/
theorem inhabits_of_kinds (hd : setting.declarations.WellFormed)
    (hguarded : setting.declarations.Guarded) (hx : setting.declarations.StandsFor x x)
    (hregular : setting.declarations.Regular x) (hsource : ∀ members, x ≠ .union members)
    (hv : setting.declarations.Inhabits v x)
    (hkinds : ∀ y, setting.declarations.Regular y → (∀ members, y ≠ .union members) →
      KindFits setting.policy (Assignable setting) x y → setting.declarations.Inhabits v y)
    (ht : setting.declarations.Regular t) (hxt : Assignable setting x t) :
    setting.declarations.Inhabits v t := by
  -- by the members of the target: a union has the value because the member that is fitted has it
  revert ht hxt
  refine members_induction (P := fun t => setting.declarations.Regular t → Assignable setting x t →
    setting.declarations.Inhabits v t) (hguarded.not_endless t) ?_
  intro t ih ht hxt
  obtain ⟨-, y, -, hty, -⟩ := assignable_iff_structures.mp hxt
  have hy := ht.standsFor hd hty
  apply Inhabits.of_standsFor hty
  cases (assignable_iff_fits_structures hx hty).mp hxt with
  | equal h => exact hv.of_beq hregular.wellFormed hy.wellFormed h
  | always h =>
      rcases h with hany | rfl | hany | hnever
      · exact absurd hany hy.ne_any
      · exact .unknown v
      · exact absurd hany hregular.ne_any
      · exact absurd hnever hv.ne_never
  | kind _ _ h =>
      by_cases htarget : ∃ members, y = .union members
      · obtain ⟨members, rfl⟩ := htarget
        cases h with
        | unionSource => exact absurd rfl (hsource _)
        | @unionTarget _ m _ _ hm h =>
            have hmember : setting.declarations.HasMember t m := ⟨members, hty.resolve_union, hm⟩
            exact .union hm (ih m hmember (ht.member hd hmember) h)
      · exact hkinds y hy (not_exists.mp htarget) h

theorem ObjectFits.exists_declared {policy : Policy} {R : Ty → Ty → Prop}
    {fields fields' : List (String × Slot Ty)} {index' : Option (IndexRule Ty)}
    (hplain : (Ty.object fields' index').Plain)
    (h : ObjectFits policy R ⟨fields, none⟩ ⟨fields', index'⟩) {name : String} {t : Slot Ty}
    (ht : (name, t) ∈ fields') : ∃ s, (name, s) ∈ fields ∧ SlotFits R s t := by
  cases h.fields _ ht with
  | @declared s hs fits => exact ⟨s, Assoc.mem_of_lookup hs, fits⟩
  | absent _ hoptional =>
      have hrequired : t.optional = false := hplain.1 _ ht
      simp [hrequired] at hoptional
  | supplied _ hindex => cases hindex

theorem Assignable.inhabits (hd : setting.declarations.WellFormed)
    (hguarded : setting.declarations.Guarded) (hs : setting.declarations.Regular s)
    (ht : setting.declarations.Regular t) (hst : Assignable setting s t)
    (hv : setting.declarations.Inhabits v s) : setting.declarations.Inhabits v t := by
  induction hv generalizing t with
  | unknown v =>
      refine inhabits_of_kinds hd hguarded (standsFor_self rfl rfl (by simp)) hs (by simp)
        (.unknown v) ?_ ht hst
      intro y _ htarget h
      cases h
      exact absurd rfl (htarget _)
  | primitive htag =>
      refine inhabits_of_kinds hd hguarded (standsFor_self rfl rfl (by simp)) hs (by simp)
        (.primitive htag) ?_ ht hst
      intro y _ htarget h
      cases h
      exact absurd rfl (htarget _)
  | literal hsame =>
      refine inhabits_of_kinds hd hguarded (standsFor_self rfl rfl (by simp)) hs (by simp)
        (.literal hsame) ?_ ht hst
      intro y _ htarget h
      cases h with
      | unionTarget => exact absurd rfl (htarget _)
      | widening => exact .primitive (Literal.kind_eq_of_same hsame)
  | object present hv ih =>
      refine inhabits_of_kinds hd hguarded (standsFor_self rfl rfl (by simp)) hs (by simp)
        (.object present hv) ?_ ht hst
      intro y hy htarget h
      cases h with
      | unionTarget => exact absurd rfl (htarget _)
      | @object _ fields' _ index' h =>
          have hplain := hy.self_plain
          obtain rfl : index' = none := Option.isNone_iff_eq_none.mp hplain.2
          refine .object ?_ ?_
          · rintro ⟨name, t⟩ hf
            obtain ⟨s, hmem, -⟩ := h.exists_declared hplain hf
            exact present (name, s) hmem
          · rintro ⟨name, t⟩ hf v hfound
            obtain ⟨s, hmem, fits⟩ := h.exists_declared hplain hf
            exact ih (name, s) hmem v hfound (hs.part (Ty.mem_parts_of_mem_fields hmem))
              (hy.part (Ty.mem_parts_of_mem_fields hf)) fits.1
  | array hv ih =>
      refine inhabits_of_kinds hd hguarded (standsFor_self rfl rfl (by simp)) hs (by simp)
        (.array hv) ?_ ht hst
      intro y hy htarget h
      cases h with
      | unionTarget => exact absurd rfl (htarget _)
      | array h =>
          exact .array fun v hmem =>
            ih v hmem (hs.part (by simp [Ty.parts])) (hy.part (by simp [Ty.parts])) h.1
  | tuple least most hv ih =>
      refine inhabits_of_kinds hd hguarded (standsFor_self rfl rfl (by simp)) hs (by simp)
        (.tuple least most hv) ?_ ht hst
      intro y hy htarget h
      cases h with
      | unionTarget => exact absurd rfl (htarget _)
      | tupleArray h =>
          refine .array fun v hmem => ?_
          rw [← List.map_fst_zip most, List.mem_map] at hmem
          obtain ⟨⟨v, e⟩, hp, rfl⟩ := hmem
          have he := (List.of_mem_zip hp).2
          exact ih (v, e) hp (hs.part (List.mem_map_of_mem he)) (hy.part (by simp [Ty.parts]))
            (h e he).1
      | tuple least' most' h =>
          have hcount := requiredCount_le_of_fits hs.wellFormed hy.wellFormed least' most' h
          refine .tuple (hcount.trans least) (most.trans most') fun p hp => ?_
          obtain ⟨e, he, he'⟩ := exists_mem_zip_middle most hp
          exact ih (p.1, e) he (hs.part (List.mem_map_of_mem (List.of_mem_zip he).2))
            (hy.part (List.mem_map_of_mem (List.of_mem_zip hp).2)) (h _ he').1
  | @union v members m hm hv ih =>
      obtain ⟨-, y, -, hty, -⟩ := assignable_iff_structures.mp hst
      have hy := ht.standsFor hd hty
      apply Inhabits.of_standsFor hty
      cases (assignable_iff_fits_structures (standsFor_union members) hty).mp hst with
      | equal h => exact (Inhabits.union hm hv).of_beq hs.wellFormed hy.wellFormed h
      | always h =>
          rcases h with hany | rfl | hany | hnever
          · exact absurd hany hy.ne_any
          · exact .unknown v
          · cases hany
          · cases hnever
      | kind _ _ h =>
          cases h with
          | unionSource h => exact ih (hs.part hm) hy (h m hm)
          | unionTarget hsource => exact absurd rfl (hsource members)
  | @mapped v entries hv ih =>
      have hx : setting.declarations.StandsFor (.mapped entries) (.object entries none) :=
        ⟨_, rfl, rfl, rfl⟩
      exact ih (hs.standsFor hd hx) ht ((assignable_source_iff hx).mpr hst)
  | named hr hv ih =>
      obtain ⟨x, -, hx, -, -⟩ := assignable_iff_structures.mp hst
      rw [← assignable_source_iff hx, assignable_source_iff (hx.of_resolve hr)] at hst
      exact ih (hs.resolve hd hr) ht hst

/-- Where a source is accepted, all its values are values of the target. -/
theorem check_sound (hd : setting.declarations.WellFormed)
    (hguarded : setting.declarations.Guarded) (hs : s.WellFormed) (ht : t.WellFormed)
    (hplain : setting.declarations.PlainWithin s) (hplain' : setting.declarations.PlainWithin t)
    (h : setting.check s t = .ok .accepted) (hv : setting.declarations.Inhabits v s) :
    setting.declarations.Inhabits v t :=
  ((isAccepted_iff_assignable hd hs ht h).mp rfl).inhabits hd hguarded ⟨hs, hplain⟩ ⟨ht, hplain'⟩ hv

/-- Logs end with a mark, histories with any text. -/
def logs : Declarations :=
  .ofList [
    ("Log", .union [.literal (.text "end"), .named "Entry"]),
    ("Entry", .mapped [
      ("done", ⟨.boolean, false, false⟩),
      ("next", ⟨.named "Log", false, false⟩),
      ("span", ⟨.tuple [⟨.literal (.number (.int 1)), false, false⟩, ⟨.string, false, true⟩],
        false, false⟩)]),
    ("History", .union [
      .object [("span", ⟨.array (.union [.string, .number]) true, true, false⟩),
        ("next", ⟨.named "History", true, false⟩)] none,
      .string])]

/-- An entry with a short span, before the end. -/
def lastEntry : Datum :=
  .record [("span", .list [.atom (.literal (.number (.int 1)))]),
    ("next", .atom (.literal (.text "end"))), ("done", .atom (.literal (.bool true)))]

theorem check_sound_logs :
    logs.Inhabits lastEntry (.named "Log") ∧ logs.Inhabits lastEntry (.named "History") := by
  have hend : logs.Inhabits (.atom (.literal (.text "end"))) (.named "Log") :=
    .named rfl (.union List.mem_cons_self (.literal rfl))
  have hentry : logs.Inhabits lastEntry (.named "Entry") := by
    refine .named rfl (.mapped (.object (by decide) ?_))
    simp only [List.forall_mem_cons]
    refine ⟨?_, ?_, ?_, by simp⟩
    · rintro _ ⟨⟩
      exact .primitive rfl
    · rintro _ ⟨⟩
      exact hend
    · rintro _ ⟨⟩
      refine .tuple (by decide) (by decide) ?_
      simp only [List.zip_cons_cons, List.zip_nil_left, List.forall_mem_cons]
      exact ⟨.literal rfl, by simp⟩
  have hlog : logs.Inhabits lastEntry (.named "Log") :=
    .named rfl (.union (List.mem_cons_of_mem _ List.mem_cons_self) hentry)
  have hguarded : logs.Guarded :=
    guarded_of_rank (fun name => if name = "Log" then 1 else 0) (by decide)
  have hd : (Setting.mk {} logs).declarations.WellFormed := by decide
  exact ⟨hlog, check_sound hd hguarded (s := .named "Log") (t := .named "History") (by decide)
    (by decide) (.of_pool (by decide)) (.of_pool (by decide)) rfl hlog⟩

end Assignability

end StructuralTypes
