import StructuralTypes.Proofs.TagMatching

namespace StructuralTypes

namespace Declarations

variable {d : Declarations} {u : Ty} {views : List (Option ObjectTy)} {names result : List String}

theorem tagsAmong_sublist (h : d.tagsAmong views names = .ok result) : result.Sublist names := by
  induction names generalizing result with
  | nil =>
      cases h
      exact .slnil
  | cons name rest ih =>
      unfold tagsAmong at h
      split at h
      · cases h
      · cases hrest : d.tagsAmong views rest with
        | error fault =>
            rw [hrest] at h
            cases h
        | ok others =>
            rw [hrest] at h
            cases h
            exact (ih hrest).cons_cons name
      · exact (ih h).cons name

theorem tagNames_nodup (hd : d.WellFormed) (hu : u.WellFormed) (h : d.tagNames u = .ok names) :
    names.Nodup := by
  unfold tagNames at h
  split at h
  · cases h
  · rename_i alts halts
    split at h
    · cases h
    · cases h
    · cases h
      exact List.nodup_nil
    · rename_i first rest hviews
      -- the names are some of the first alternative's, which differ
      cases objectViews_eq_ok hviews with
      | @cons b _ alts _ hview _ =>
          have hreach : Assignability.Reachable d u u b :=
            reachable_of_mem_alternatives .source halts List.mem_cons_self
          have hfirst := wellFormed_of_objectView hd (hreach.wellFormed hd hu hu) hview
          exact hfirst.names_nodup.sublist (tagsAmong_sublist h)

end Declarations

namespace Setting

/-- The setting in which the policy insists on tags, or does not. -/
def insisting (setting : Setting) (insists : Bool) : Setting :=
  { setting with policy := { setting.policy with enforceTags := insists } }

end Setting

namespace Narrowing

open Declarations

variable {setting : Setting} {u : Ty} {alts : List Ty} {views : List (Option ObjectTy)}
  {field : String} {l : Literal} {tags : List (Option (List Literal))}

theorem failure_of_single {matching candidates : List Nat} {failure : Failure}
    (h : single alts matching = .failed failure candidates) :
    failure = .noMatch ∨ failure = .ambiguous := by
  unfold single at h
  split at h
  · cases h
    exact Or.inl rfl
  · split at h
    · cases h
    · cases h
      exact Or.inl rfl
  · cases h
    exact Or.inr rfl

theorem selectByTags_missing_iff {d : Declarations} (hviews : d.objectViews alts = .ok views)
    (htags : d.tagsEach field views = .ok tags) :
    (∃ places, selectByTags alts tags l = .failed .missingTag places) ↔
      ¬ Tagged d alts field := by
  by_cases htagged : Tagged d alts field
  · rw [selectByTags_of_tagged hviews htags htagged]
    simp only [htagged, not_true, iff_false]
    rintro ⟨places, hfailed⟩
    rcases failure_of_single hfailed with h | h <;> cases h
  · rw [selectByTags_of_not_tagged hviews htags htagged]
    simp [htagged]

theorem usable_iff (hresolves : setting.declarations.Resolves u)
    (halts : setting.declarations.alternatives u = .ok alts) (field : String) (l : Literal) :
    (∃ selection, setting.select u (.tag field l) = .ok selection ∧
      ∀ places, selection ≠ .failed .missingTag places) ↔
      Tagged setting.declarations alts field := by
  obtain ⟨alts', views, halts', hviews, hseen⟩ := hresolves.alternativeViews
  cases halts.symm.trans halts'
  obtain ⟨tags, htags⟩ := hresolves.tagsEach hseen field
  rw [select_tag_of_views halts hviews htags l]
  constructor
  · rintro ⟨selection, hselection, hne⟩
    cases hselection
    by_contra hnot
    obtain ⟨places, hfailed⟩ := (selectByTags_missing_iff hviews htags).mpr hnot
    exact hne places hfailed
  · intro htagged
    refine ⟨_, rfl, fun places hfailed => ?_⟩
    exact (selectByTags_missing_iff hviews htags).mp ⟨places, hfailed⟩ htagged

section Presence

variable {names : List String}

theorem select_present_of_no_tags (hnames : refusalTags setting u alts = .ok [])
    (halts : setting.declarations.alternatives u = .ok alts)
    (hviews : setting.declarations.objectViews alts = .ok views) (field : String) :
    setting.select u (.present field) = .ok (selectByPresence alts views field) := by
  simp only [Setting.select, outcome, halts, hviews, hnames]
  rfl

theorem select_present_of_tags (hnames : refusalTags setting u alts = .ok names) (hne : names ≠ [])
    (halts : setting.declarations.alternatives u = .ok alts)
    (hviews : setting.declarations.objectViews alts = .ok views) (field : String) :
    setting.select u (.present field) = .ok (.failed .tagAvailable []) := by
  simp only [Setting.select, outcome, halts, hviews, hnames]
  cases names with
  | nil => exact absurd rfl hne
  | cons name rest => rfl

theorem refusalTags_off (setting : Setting) (u : Ty) (alts : List Ty) :
    refusalTags (setting.insisting false) u alts = .ok [] := by
  simp [refusalTags, Setting.insisting]

theorem refusalTags_on (hnames : setting.declarations.tagNames u = .ok names) (alts : List Ty) :
    refusalTags (setting.insisting true) u alts =
      .ok (if 2 ≤ alts.length then names else []) := by
  unfold refusalTags
  simp only [Setting.insisting, Bool.true_and, decide_eq_true_eq]
  show (if 2 ≤ alts.length then _ else _) = _
  split
  · exact hnames
  · rfl

theorem select_present_refused (halts : setting.declarations.alternatives u = .ok alts)
    (hviews : setting.declarations.objectViews alts = .ok views)
    (hnames : setting.declarations.tagNames u = .ok names)
    (h : 2 ≤ alts.length ∧ ∃ name, name ∈ names) (field : String) :
    (setting.insisting true).select u (.present field) = .ok (.failed .tagAvailable []) := by
  have hrefusal := refusalTags_on hnames alts
  rw [if_pos h.1] at hrefusal
  obtain ⟨name, hname⟩ := h.2
  exact select_present_of_tags hrefusal (List.ne_nil_of_mem hname) halts hviews field

theorem select_present_not_refused (halts : setting.declarations.alternatives u = .ok alts)
    (hviews : setting.declarations.objectViews alts = .ok views)
    (hnames : setting.declarations.tagNames u = .ok names)
    (h : ¬ (2 ≤ alts.length ∧ ∃ name, name ∈ names)) (field : String) :
    (setting.insisting true).select u (.present field) =
      .ok (selectByPresence alts views field) := by
  have hrefusal : refusalTags (setting.insisting true) u alts = .ok [] := by
    rw [refusalTags_on hnames]
    split
    · rename_i hseveral
      rw [List.eq_nil_iff_forall_not_mem.mpr fun name hname => h ⟨hseveral, name, hname⟩]
    · rfl
  exact select_present_of_no_tags hrefusal halts hviews field

theorem selectByPresence_ne (alts : List Ty) (views : List (Option ObjectTy)) (field : String)
    (places : List Nat) : selectByPresence alts views field ≠ .failed .tagAvailable places := by
  intro hfailed
  rcases failure_of_single hfailed with h | h <;> cases h

end Presence

/-- The tag names of a type with alternatives are the tags that it can be narrowed by, whichever
literal is asked for, and no name comes twice. A policy that insists on tags refuses a test for
presence exactly when there are several alternatives and such a name; otherwise it changes
nothing. -/
theorem tagNames_govern_narrowing (hd : setting.declarations.WellFormed) (hu : u.WellFormed)
    (hresolves : setting.declarations.Resolves u)
    (halts : setting.declarations.alternatives u = .ok alts) (hne : alts ≠ []) :
    ∃ names, setting.declarations.tagNames u = .ok names ∧ names.Nodup ∧
      (∀ name,
        (name ∈ names ↔ ∀ l, ∃ selection, setting.select u (.tag name l) = .ok selection ∧
          ∀ places, selection ≠ .failed .missingTag places) ∧
        (name ∈ names ↔ ∃ l selection, setting.select u (.tag name l) = .ok selection ∧
          ∀ places, selection ≠ .failed .missingTag places)) ∧
      ∀ field, ∃ off, (setting.insisting false).select u (.present field) = .ok off ∧
        ((∃ places, (setting.insisting true).select u (.present field) =
            .ok (.failed .tagAvailable places)) ↔
          2 ≤ alts.length ∧ ∃ name, name ∈ names) ∧
        (¬ (2 ≤ alts.length ∧ ∃ name, name ∈ names) →
          (setting.insisting true).select u (.present field) = .ok off) := by
  obtain ⟨names, hnames⟩ := hresolves.tagNames halts hne
  have husable := usable_iff hresolves halts
  have hmem : ∀ name, name ∈ names ↔ Tagged setting.declarations alts name :=
    fun name => mem_tagNames_iff hnames halts
  refine ⟨names, hnames, tagNames_nodup hd hu hnames, fun name => ⟨?_, ?_⟩, fun field => ?_⟩
  · rw [hmem]
    constructor
    · exact fun htagged l => (husable name l).mpr htagged
    · exact fun h => (husable name (.bool true)).mp (h (.bool true))
  · rw [hmem]
    constructor
    · exact fun htagged => ⟨.bool true, (husable name (.bool true)).mpr htagged⟩
    · rintro ⟨l, hl⟩
      exact (husable name l).mp hl
  · obtain ⟨alts', views, halts', hviews, -⟩ := hresolves.alternativeViews
    cases halts.symm.trans halts'
    have hoff : (setting.insisting false).select u (.present field) =
        .ok (selectByPresence alts views field) :=
      select_present_of_no_tags (refusalTags_off setting u alts) halts hviews field
    refine ⟨_, hoff, ⟨?_, ?_⟩, ?_⟩
    · rintro ⟨places, hrefused⟩
      by_contra hnot
      rw [select_present_not_refused halts hviews hnames hnot] at hrefused
      exact selectByPresence_ne alts views field places (Except.ok.inj hrefused)
    · exact fun h => ⟨[], select_present_refused halts hviews hnames h field⟩
    · exact fun hnot => select_present_not_refused halts hviews hnames hnot field

def message : Ty :=
  .object [("to", ⟨.string, false, false⟩), ("kind", ⟨.literal (.text "message"), false, false⟩)]
    none

/-- A reply, of which the kind may be left out. -/
def reply (loose : Bool) : Ty :=
  .object [("kind", ⟨.named "Kind", false, loose⟩),
    ("final", ⟨.literal (.bool true), false, false⟩)] none

def mail : Declarations :=
  .ofList [
    ("Kind", .union [.literal (.text "reply"), .literal (.text "answer")]),
    ("Mail", .union [message, reply false, .named "Mail"]),
    ("Loose", .union [message, reply true])]

/-- Mail is told apart by its kind, so that a test for presence is refused. Where the kind of a
reply may be left out no tag is left, and the test selects the reply. -/
theorem tagNames_govern_narrowing_mail :
    (∃ names, mail.tagNames (.named "Mail") = .ok names ∧ names.Nodup ∧ "kind" ∈ names ∧
      ∃ places, (Setting.insisting ⟨{}, mail⟩ true).select (.named "Mail") (.present "final") =
        .ok (.failed .tagAvailable places)) ∧
    ∃ off, (Setting.insisting ⟨{}, mail⟩ false).select (.named "Loose") (.present "final") =
        .ok off ∧
      (Setting.insisting ⟨{}, mail⟩ true).select (.named "Loose") (.present "final") = .ok off := by
  have hd : (Setting.mk {} mail).declarations.WellFormed := by decide
  have hmail : mail.alternatives (.named "Mail") = .ok [message, reply false] := rfl
  have hloose : mail.alternatives (.named "Loose") = .ok [message, reply true] := rfl
  constructor
  · obtain ⟨names, hnames, hnodup, -, hpresent⟩ :=
      tagNames_govern_narrowing hd (by decide) (resolves_of_pool (by decide)) hmail (by simp)
    have hkind : names = ["kind"] := (Except.ok.inj hnames).symm
    have hmem : "kind" ∈ names := by simp [hkind]
    obtain ⟨off, -, hrefused, -⟩ := hpresent "final"
    exact ⟨names, hnames, hnodup, hmem, hrefused.mpr ⟨by decide, "kind", hmem⟩⟩
  · obtain ⟨names, hnames, -, -, hpresent⟩ :=
      tagNames_govern_narrowing hd (by decide) (resolves_of_pool (by decide)) hloose (by simp)
    have hnone : names = [] := (Except.ok.inj hnames).symm
    obtain ⟨off, hoff, -, hsame⟩ := hpresent "final"
    exact ⟨off, hoff, hsame (by simp [hnone])⟩

end Narrowing

end StructuralTypes
