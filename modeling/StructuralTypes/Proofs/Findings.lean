import StructuralTypes.Finding.Wording
import StructuralTypes.Proofs.Certificate
import StructuralTypes.Proofs.Termination

namespace StructuralTypes

namespace Ty

section Text

variable {fault : Fault}

theorem textFaultFields?_eq (fields : List (String × Slot Ty)) :
    textFaultFields? fields = textFaultMembers? .type (fields.map fun f => f.2.type) := by
  induction fields with
  | nil => rfl
  | cons f rest ih => rw [List.map_cons, textFaultFields?, textFaultMembers?, ih]

theorem textFaultSlots?_eq (elements : List (Slot Ty)) :
    textFaultSlots? elements = textFaultMembers? .type (elements.map Slot.type) := by
  induction elements with
  | nil => rfl
  | cons e rest ih => rw [List.map_cons, textFaultSlots?, textFaultMembers?, ih]

theorem textOrFault_eq_error {style : Style} {t : Ty} :
    t.textOrFault style = .error fault ↔ textFault? style t = some fault := by
  unfold textOrFault
  cases textFault? style t <;> simp

theorem render_eq_error {t : Ty} (h : t.render = .error fault) :
    (∃ v, t = .foreign v) ∨ (∃ p ∈ t.parts, p.render = .error fault) ∨
      ∃ o : ObjectTy, ∃ r, t = o.toTy ∧ o.index = some r ∧ r.key.renderDomain = .error fault := by
  simp only [render, renderDomain, textOrFault_eq_error] at h ⊢
  cases t with
  | foreign v => exact Or.inl ⟨v, rfl⟩
  | object fields index =>
      rw [textFault?, textFaultFields?_eq, Option.or_eq_some_iff] at h
      rcases h with h | ⟨-, h⟩
      · obtain ⟨p, hp, hfault⟩ := textFaultMembers?_eq_some h
        exact Or.inr (Or.inl ⟨p, List.mem_append_left _ hp, hfault⟩)
      · cases index with
        | none => cases h
        | some r =>
            rw [textFaultIndex?, Option.or_eq_some_iff] at h
            rcases h with h | ⟨-, h⟩
            · exact Or.inr (Or.inr ⟨⟨fields, some r⟩, r, rfl, rfl, h⟩)
            · exact Or.inr (Or.inl ⟨r.value, value_mem_parts, h⟩)
  | array element readonly => exact Or.inr (Or.inl ⟨element, List.mem_singleton_self _, h⟩)
  | tuple elements =>
      rw [textFault?, textFaultSlots?_eq] at h
      exact Or.inr (Or.inl (textFaultMembers?_eq_some h))
  | union members => exact Or.inr (Or.inl (textFaultMembers?_eq_some h))
  | mapped entries =>
      rw [textFault?, textFaultFields?_eq] at h
      exact Or.inr (Or.inl (textFaultMembers?_eq_some h))
  | _ => cases h

end Text

end Ty

namespace Assignability

section Wordable

/-- A type as the wording expects it: no foreign value, and the integers in its index key have the
range of binary numbers. -/
def Expressible (u : Ty) : Prop :=
  u.foreign? = none ∧ ∀ n ∈ keyIntegers u, n.natAbs < Binary64.integerLimit

instance (u : Ty) : Decidable (Expressible u) :=
  inferInstanceAs (Decidable (_ ∧ _))

/-- A type with nothing inside that has no wording. -/
structure Wordable (u : Ty) : Prop where
  wellFormed : u.WellFormed
  inside : ∀ p ∈ u.inside, Expressible p

variable {u : Ty}

theorem Wordable.part (h : Wordable u) {p : Ty} (hp : p ∈ u.parts) : Wordable p where
  wellFormed := h.wellFormed.part hp
  inside := fun q hq => h.inside q (Ty.mem_inside_iff.mpr (Or.inr ⟨p, hp, hq⟩))

theorem Wordable.self_or_part (h : Wordable u) {p : Ty} (hp : p = u ∨ p ∈ u.parts) :
    Wordable p := by
  rcases hp with rfl | hp
  · exact h
  · exact h.part hp

theorem Wordable.expressible (h : Wordable u) : Expressible u :=
  h.inside u u.self_mem_inside

theorem wordable_of_reachable {d : Declarations} {s t : Ty} (hd : d.WellFormed)
    (hs : s.WellFormed) (ht : t.WellFormed) (h : ∀ u, Reachable d s t u → Expressible u)
    (hu : Reachable d s t u) : Wordable u where
  wellFormed := hu.wellFormed hd hs ht
  inside := fun p hp => h p (hu.inside hp)

theorem Wordable.renderDomain {o : ObjectTy} {r : IndexRule Ty} (h : Wordable o.toTy)
    (hr : o.index = some r) : ∃ domain, r.key.renderDomain = .ok domain := by
  cases hdomain : r.key.renderDomain with
  | ok domain => exact ⟨domain, rfl⟩
  | error fault =>
      obtain ⟨l, hl, hfault⟩ :=
        Ty.renderDomain_eq_error (isKeyDomain_of_index h.wellFormed hr) hdomain
      rw [keyFault?_eq_none h.expressible.2 hr hl] at hfault
      cases hfault

theorem Wordable.render (h : Wordable u) : ∃ text, u.render = .ok text := by
  induction u using Ty.parts_induction with
  | step u ih =>
      cases hrender : u.render with
      | ok text => exact ⟨text, rfl⟩
      | error fault =>
          rcases Ty.render_eq_error hrender with
            ⟨v, rfl⟩ | ⟨p, hp, hfault⟩ | ⟨o, r, rfl, hr, hfault⟩
          · cases h.expressible.1
          · obtain ⟨text, htext⟩ := ih p hp (h.part hp)
            rw [hfault] at htext
            cases htext
          · obtain ⟨domain, hdomain⟩ := h.renderDomain hr
            rw [hfault] at hdomain
            cases hdomain

end Wordable

section Describing

variable {policy : Policy} {setting : Setting} {s t a b x y : Ty} {path last : Path}
  {reason : Reason}

theorem textOrUnknown_eq_render {u : Ty} (h : u.foreign? = none) :
    textOrUnknown (some u) = u.render := by
  cases u with
  | foreign v => cases h
  | _ => rfl

theorem domainOrUnknown_eq_renderDomain {u : Ty} (h : u.foreign? = none) :
    domainOrUnknown (some u) = u.renderDomain := by
  cases u with
  | foreign v => cases h
  | _ => rfl

theorem describe_eq_ok (hx : Wordable x) (hy : Wordable y)
    (hkeys : reason = .keyMismatch →
      (∃ domain, x.renderDomain = .ok domain) ∧ ∃ domain, y.renderDomain = .ok domain)
    (path : Path) : ∃ message, reason.describe path (some x) (some y) = .ok message := by
  obtain ⟨text, htext⟩ := hx.render
  obtain ⟨text', htext'⟩ := hy.render
  rw [Reason.describe, textOrUnknown_eq_render hx.expressible.1, htext,
    textOrUnknown_eq_render hy.expressible.1, htext']
  cases reason with
  | keyMismatch =>
      obtain ⟨⟨domain, hdomain⟩, domain', hdomain'⟩ := hkeys rfl
      rw [domainOrUnknown_eq_renderDomain hx.expressible.1, hdomain,
        domainOrUnknown_eq_renderDomain hy.expressible.1, hdomain']
      exact ⟨_, rfl⟩
  | _ => exact ⟨_, rfl⟩

theorem Failure.self_or_part (h : Failure policy a b last reason x y) :
    (x = a ∨ x ∈ a.parts) ∧ (y = b ∨ y ∈ b.parts) := by
  cases h with
  | readonly h => exact ⟨Or.inr h.mem_parts.1, Or.inr h.mem_parts.2⟩
  | optional h => exact ⟨Or.inr h.mem_parts.1, Or.inr h.mem_parts.2⟩
  | missing ht => exact ⟨Or.inl rfl, Or.inr (Ty.mem_parts_of_mem_fields ht)⟩
  | key hr hr' => exact ⟨Or.inr (key_mem_parts hr), Or.inr (key_mem_parts hr')⟩
  | _ => exact ⟨Or.inl rfl, Or.inl rfl⟩

theorem Failure.ne_noMemberMatches (h : Failure policy a b last reason x y) :
    reason ≠ .noMemberMatches := by
  cases h <;> simp

theorem Failure.describe (h : Failure policy a b last reason x y) (ha : Wordable a)
    (hb : Wordable b) (path : Path) :
    ∃ message, reason.describe path (some x) (some y) = .ok message := by
  obtain ⟨hx, hy⟩ := h.self_or_part
  refine describe_eq_ok (ha.self_or_part hx) (hb.self_or_part hy) ?_ path
  rintro rfl
  cases h with
  | key hr hr' => exact ⟨ha.renderDomain hr, hb.renderDomain hr'⟩

theorem Walk.reachable (h : Walk setting x y path a b)
    (hx : Reachable setting.declarations s t x) (hy : Reachable setting.declarations s t y) :
    Reachable setting.declarations s t a ∧ Reachable setting.declarations s t b := by
  induction h with
  | stop => exact ⟨hx, hy⟩
  | resolved hx' hy' _ ih => exact ih (hx.resolve hx') (hy.resolve hy')
  | expanded _ ih => exact ih hx.expanded hy.expanded
  | targetMember hm _ ih => exact ih hx (hy.part hm)
  | down hleads _ ih =>
      obtain ⟨hx', hy'⟩ := hleads.mem_parts
      exact ih (hx.part hx') (hy.self_or_part hy')

theorem describe_noMember (source target : Ty) (causes : List Verdict) (above : Path) :
    ((noMember source target causes).under above).describe =
      Reason.noMemberMatches.describe ((noMember source target causes).under above).path
        (some source) (some target) :=
  rfl

/-- A refusal that a comparison gave can be worded, also as seen from above. -/
theorem Certificate.describe {v : Verdict} (h : Certificate setting x y v)
    (hall : ∀ u, Reachable setting.declarations s t u → Wordable u)
    (hx : Reachable setting.declarations s t x) (hy : Reachable setting.declarations s t y)
    (above : Path) : ∃ message, (v.under above).describe = .ok message := by
  cases h with
  | failure _ walk hfailure =>
      obtain ⟨ha, hb⟩ := walk.reachable hx hy
      exact hfailure.describe (hall _ ha) (hall _ hb) _
  | @noMember _ _ a members _ _ _ walk =>
      obtain ⟨ha, hb⟩ := walk.reachable hx hy
      rw [Verdict.under_under, describe_noMember]
      apply describe_eq_ok (hall a ha) (hall (.union members) hb)
      intro hreason
      cases hreason

end Describing

section Notes

/-- There is a note for each member of a union, which names it and says why and where it was
refused. -/
structure NotesOn (members : List Ty) (causes : List Verdict) (notes : List String) : Prop where
  causes_length : causes.length = members.length
  notes_length : notes.length = members.length
  note (i : Nat) (m : Ty) (c : Verdict) (hm : members[i]? = some m) (hc : causes[i]? = some c) :
    ∃ member message, m.render = .ok member ∧ c.describe = .ok message ∧
      notes[i]? = some ("member '" ++ member ++ "': " ++ message ++ " at " ++ c.path.text)

theorem memberNotes_eq_ok {members : List Ty} {causes : List Verdict}
    (h : List.Forall₂ (fun m c => Wordable m ∧ ∃ message, c.describe = .ok message)
      members causes) :
    ∃ notes, Verdict.memberNotes members causes = .ok notes ∧ NotesOn members causes notes := by
  induction h with
  | nil => exact ⟨[], rfl, rfl, rfl, by simp⟩
  | @cons m c members causes hfirst _ ih =>
      obtain ⟨hm, message, hmessage⟩ := hfirst
      obtain ⟨member, hmember⟩ := hm.render
      obtain ⟨notes, hnotes, hon⟩ := ih
      refine ⟨("member '" ++ member ++ "': " ++ message ++ " at " ++ c.path.text) :: notes,
        ?_, ?_, ?_, ?_⟩
      · rw [Verdict.memberNotes, List.head?_cons, Option.some_or,
          textOrUnknown_eq_render hm.expressible.1, hmember, hmessage, List.tail_cons, hnotes]
        rfl
      · rw [List.length_cons, List.length_cons, hon.causes_length]
      · rw [List.length_cons, List.length_cons, hon.notes_length]
      · intro i m' c' hm' hc'
        cases i with
        | zero =>
            cases hm'
            cases hc'
            exact ⟨member, message, hmember, hmessage, rfl⟩
        | succ i => exact hon.note i m' c' hm' hc'

end Notes

section Reporting

variable {setting : Setting} {s t : Ty} {v : Verdict}

theorem findings_rejected {path : Path} {reason : Reason} {source target : Option Ty}
    {causes : List Verdict} {notes : List String} {message : String}
    (hv : v = .rejected path reason source target causes) (hnotes : v.notes = .ok notes)
    (hmessage : v.describe = .ok message) (subject : Option String) :
    v.findings subject = .ok [{ code := .ofReason reason, message, path, subject, notes }] := by
  subst hv
  rw [Verdict.findings, hnotes, hmessage]
  rfl

theorem Failure.notes_eq_nil {policy : Policy} {a b x y : Ty} {last : Path} {reason : Reason}
    (h : Failure policy a b last reason x y) (path : Path) (source target : Option Ty)
    (causes : List Verdict) :
    (Verdict.rejected path reason source target causes).notes = .ok [] := by
  cases h <;> rfl

theorem Certificate.notes {x y : Ty} (h : Certificate setting x y v)
    (hall : ∀ u, Reachable setting.declarations s t u → Wordable u)
    (hx : Reachable setting.declarations s t x) (hy : Reachable setting.declarations s t y) :
    ∃ path reason source target causes notes, v = .rejected path reason source target causes ∧
      v.notes = .ok notes ∧ (reason ≠ .noMemberMatches → notes = []) ∧
      (reason = .noMemberMatches →
        ∃ members, target = some (.union members) ∧ NotesOn members causes notes) := by
  cases h with
  | @failure _ _ a b x' y' path last reason _ walk hfailure =>
      refine ⟨path ++ last, reason, some x', some y', [], [], rfl, hfailure.notes_eq_nil _ _ _ _,
        fun _ => rfl, fun hreason => ?_⟩
      exact absurd hreason hfailure.ne_noMemberMatches
  | @noMember _ _ a members causes path _ walk _ hlength hcauses =>
      obtain ⟨ha, hunion⟩ := walk.reachable hx hy
      have hworded : List.Forall₂ (fun m c => Wordable m ∧ ∃ message, c.describe = .ok message)
          members (Verdict.underEach path causes) := by
        rw [Verdict.underEach_eq_map, List.forall₂_map_right_iff, List.forall₂_iff_get]
        refine ⟨hlength.symm, fun i hi hi' => ⟨hall _ (hunion.part (List.get_mem _ _)), ?_⟩⟩
        have hcertificate := hcauses i _ _ (List.getElem?_eq_getElem hi)
          (List.getElem?_eq_getElem hi')
        exact hcertificate.describe hall ha (hunion.part (List.getElem_mem hi)) path
      obtain ⟨notes, hnotes, hon⟩ := memberNotes_eq_ok hworded
      refine ⟨_, .noMemberMatches, some a, some (.union members), _, notes, rfl, hnotes, ?_, ?_⟩
      · exact fun hreason => absurd rfl hreason
      · exact fun _ => ⟨members, rfl, hon⟩

/-- What a comparison says can be reported. An acceptance is no finding. A refusal is one, an error
of the same name, at the same place and with the wording of the verdict; where no member of a union
fits it has a note for each member, and no other refusal has notes. -/
theorem findings_of_judged (hd : setting.declarations.WellFormed) (hs : s.WellFormed)
    (ht : t.WellFormed) (h : ∀ u, Reachable setting.declarations s t u → Expressible u)
    (hv : Judged setting s t v) (subject : Option String) :
    ∃ found, v.findings subject = .ok found ∧ (found = [] ↔ v.isAccepted = true) ∧
      ∀ path reason source target causes, v = .rejected path reason source target causes →
        ∃ f, found = [f] ∧ f.code.name = reason.name ∧ f.path = path ∧ f.severity = .error ∧
          f.subject = subject ∧ v.describe = .ok f.message ∧
          (reason ≠ .noMemberMatches → f.notes = []) ∧
          (reason = .noMemberMatches →
            ∃ members, target = some (.union members) ∧ NotesOn members causes f.notes) := by
  cases haccepted : v.isAccepted with
  | true =>
      rw [eq_accepted_of_isAccepted haccepted]
      exact ⟨[], rfl, by simp, nofun⟩
  | false =>
      have hcheck : setting.check s t = .ok v := by
        rcases hv with hv | ⟨-, hv⟩
        · exact hv
        · rw [isAccepted_of_checkSelf hv] at haccepted
          cases haccepted
      obtain ⟨B, hrun⟩ := search_of_check_eq_ok hcheck
      have hcertificate :=
        certificate_of_search hd hs ht (by simp [Assumptions.WellFormed]) hrun haccepted
      have hall : ∀ u, Reachable setting.declarations s t u → Wordable u :=
        fun u hu => wordable_of_reachable hd hs ht h hu
      obtain ⟨message, hmessage⟩ := hcertificate.describe hall .source .target []
      rw [Verdict.under_nil] at hmessage
      obtain ⟨path, reason, source, target, causes, notes, rfl, hnotes, hnone, hsome⟩ :=
        hcertificate.notes hall .source .target
      refine ⟨_, findings_rejected rfl hnotes hmessage subject, by simp, ?_⟩
      rintro path' reason' source' target' causes' ⟨⟩
      exact ⟨_, rfl, rfl, rfl, rfl, rfl, hmessage, hnone, hsome⟩

theorem findings_of_judged_forest :
    ∃ v f, Setting.check ⟨{}, forest⟩ (.array .string false) (.named "Branch") = .ok v ∧
      v.findings (some "garden") = .ok [f] ∧ f.code.name = "NO_UNION_MEMBER_MATCHES" ∧
      f.path = [] ∧ f.notes.length = 2 := by
  have hrejected : ∃ path causes, Setting.check ⟨{}, forest⟩ (.array .string false)
      (.named "Branch") = .ok (.rejected path .noMemberMatches (some (.array .string false))
        (some (.union [.named "Tree", .array (.named "Twig") false])) causes) ∧ path = [] :=
    ⟨_, _, rfl, rfl⟩
  obtain ⟨path, causes, hv, hpath⟩ := hrejected
  have hpool : ∀ u ∈ pool forest (.array .string false) (.named "Branch"), Expressible u := by
    decide +kernel
  have hd : (Setting.mk {} forest).declarations.WellFormed := by decide
  obtain ⟨found, hfound, -, hrefusal⟩ := findings_of_judged hd (by decide) (by decide)
    (fun u hu => hpool u hu.mem_pool) (Or.inl hv) (some "garden")
  obtain ⟨f, rfl, hcode, hpath', -, -, -, -, hnotes⟩ := hrefusal _ _ _ _ _ rfl
  obtain ⟨members, hmembers, hon⟩ := hnotes rfl
  cases hmembers
  exact ⟨_, f, hv, hfound, hcode, hpath'.trans hpath, hon.notes_length⟩

end Reporting

end Assignability

end StructuralTypes
