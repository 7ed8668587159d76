import StructuralTypes.Proofs.Locality
import StructuralTypes.Proofs.Tags

namespace StructuralTypes

open Assignability

theorem exists_each {α β : Type} (one : α → Except Fault β)
    (each : List α → Except Fault (List β)) (hnil : each [] = .ok [])
    (hcons : ∀ a rest, each (a :: rest) = (one a).bind fun b => (each rest).map (b :: ·))
    {items : List α} (h : ∀ a ∈ items, ∃ b, one a = .ok b) : ∃ bs, each items = .ok bs := by
  induction items with
  | nil => exact ⟨[], hnil⟩
  | cons a rest ih =>
      rw [List.forall_mem_cons] at h
      obtain ⟨b, hb⟩ := h.1
      obtain ⟨bs, hbs⟩ := ih h.2
      refine ⟨b :: bs, ?_⟩
      rw [hcons, hb, hbs]
      rfl

namespace Declarations

variable {d : Declarations} {u t : Ty}

/-- Every name that can be come to from a type stands for something. -/
def Resolves (d : Declarations) (u : Ty) : Prop :=
  ∀ t, Reachable d u u t → ∃ r, d.resolve t = .ok r

theorem resolves_of_pool (h : ∀ t ∈ pool d u u, (d.resolve t).isOk = true) : d.Resolves u := by
  intro t ht
  have hok := h t ht.mem_pool
  cases hr : d.resolve t with
  | error fault =>
      rw [hr] at hok
      cases hok
  | ok r => exact ⟨r, rfl⟩

theorem exists_gatherMembers {enter : List Ty → Gathering → Except Fault Gathering}
    {members : List Ty} (hresolve : ∀ m ∈ members, ∃ r, d.resolve m = .ok r)
    (henter : ∀ m ∈ members, ∀ us, d.resolve m = .ok (.union us) → ∀ g, ∃ g', enter us g = .ok g')
    (g : Gathering) : ∃ g', d.gatherMembers enter members g = .ok g' := by
  induction members generalizing g with
  | nil => exact ⟨g, rfl⟩
  | cons m rest ih =>
      rw [List.forall_mem_cons] at hresolve henter
      obtain ⟨r, hr⟩ := hresolve.1
      have hrest := ih hresolve.2 henter.2
      unfold gatherMembers
      rw [hr]
      split
      · rename_i hfault
        cases hfault
      · rename_i us hunion
        obtain ⟨g', hg'⟩ := henter.1 us (hr.trans hunion) g
        rw [hg']
        exact hrest g'
      · exact hrest (g.add m)

namespace Resolves

variable {view : Option ObjectTy} {views : List (Option ObjectTy)}

theorem gatherUnion (h : d.Resolves u) (budget : Nat) {members : List Ty}
    (hmembers : ∀ m ∈ members, Reachable d u u m) (g : Gathering) :
    ∃ g', d.gatherUnion budget members g = .ok g' := by
  induction budget generalizing members g with
  | zero => exact ⟨g, rfl⟩
  | succ budget ih =>
      unfold Declarations.gatherUnion
      split
      · exact ⟨g, rfl⟩
      · apply exists_gatherMembers
        · exact fun m hm => h m (hmembers m hm)
        · intro m hm us hus g'
          exact ih (fun m' hm' => ((hmembers m hm).resolve hus).part hm') g'

theorem alternatives (h : d.Resolves u) : ∃ alts, d.alternatives u = .ok alts := by
  obtain ⟨r, hr⟩ := h u .source
  unfold Declarations.alternatives
  rw [hr]
  split
  · rename_i hfault
    cases hfault
  · rename_i members hunion
    have hmembers : ∀ m ∈ members, Reachable d u u m :=
      fun m hm => (Reachable.source.resolve (hr.trans hunion)).part hm
    obtain ⟨g, hg⟩ := h.gatherUnion (u.size + d.size + 1) hmembers .start
    rw [hg]
    exact ⟨g.found, rfl⟩
  · exact ⟨_, rfl⟩

theorem objectView (h : d.Resolves u) (ht : Reachable d u u t) :
    ∃ view, d.objectView t = .ok view := by
  obtain ⟨r, hr⟩ := h t ht
  rw [Declarations.objectView, hr]
  exact ⟨_, rfl⟩

theorem alternativeViews (h : d.Resolves u) :
    ∃ alts views, d.alternatives u = .ok alts ∧ d.objectViews alts = .ok views ∧
      ∀ view ∈ views, d.Seen u u view := by
  obtain ⟨alts, halts⟩ := h.alternatives
  have hreach : ∀ m ∈ alts, Reachable d u u m :=
    fun m hm => reachable_of_mem_alternatives .source halts hm
  obtain ⟨views, hviews⟩ := exists_each d.objectView d.objectViews rfl objectViews_cons
    fun m hm => h.objectView (hreach m hm)
  exact ⟨alts, views, halts, hviews, seen_of_objectViews hreach hviews⟩

theorem literals? (h : d.Resolves u) (ht : Reachable d u u t) :
    ∃ ls, d.literals? t = .ok ls := by
  obtain ⟨r, hr⟩ := h t ht
  unfold Declarations.literals?
  rw [hr]
  split
  · rename_i hfault
    cases hfault
  · exact ⟨_, rfl⟩
  · rename_i members hunion
    have hmembers : ∀ m ∈ members, ∃ r', d.resolve m = .ok r' :=
      fun m hm => h m ((ht.resolve (hr.trans hunion)).part hm)
    obtain ⟨ts, hts⟩ := exists_each d.resolve d.resolveEach rfl resolveEach_cons hmembers
    rw [hts]
    exact ⟨_, rfl⟩
  · exact ⟨_, rfl⟩

theorem tagLiterals? (h : d.Resolves u) (hview : d.Seen u u view) (name : String) :
    ∃ tag, d.tagLiterals? view name = .ok tag := by
  unfold Declarations.tagLiterals?
  split
  · rename_i s hs
    split
    · exact ⟨none, rfl⟩
    · obtain ⟨o, ho, hget⟩ := Option.bind_eq_some_iff.mp hs
      exact h.literals? ((hview o ho).part (Ty.mem_parts_of_mem_fields (Assoc.mem_of_lookup hget)))
  · exact ⟨none, rfl⟩

theorem tagsEach (h : d.Resolves u) (hviews : ∀ view ∈ views, d.Seen u u view) (name : String) :
    ∃ tags, d.tagsEach name views = .ok tags :=
  exists_each (d.tagLiterals? · name) (d.tagsEach name) rfl (tagsEach_cons name)
    fun view hview => h.tagLiterals? (hviews view hview) name

theorem allTagged (h : d.Resolves u) (hviews : ∀ view ∈ views, d.Seen u u view) (name : String) :
    ∃ b, d.allTagged name views = .ok b := by
  induction views with
  | nil => exact ⟨true, rfl⟩
  | cons view rest ih =>
      rw [List.forall_mem_cons] at hviews
      obtain ⟨tag, htag⟩ := h.tagLiterals? hviews.1 name
      rw [Declarations.allTagged, htag]
      cases tag with
      | none => exact ⟨false, rfl⟩
      | some ls => exact ih hviews.2

theorem tagsAmong (h : d.Resolves u) (hviews : ∀ view ∈ views, d.Seen u u view)
    (names : List String) : ∃ result, d.tagsAmong views names = .ok result := by
  induction names with
  | nil => exact ⟨[], rfl⟩
  | cons name rest ih =>
      obtain ⟨b, hb⟩ := h.allTagged hviews name
      obtain ⟨result, hresult⟩ := ih
      rw [Declarations.tagsAmong, hb, hresult]
      cases b with
      | true => exact ⟨name :: result, rfl⟩
      | false => exact ⟨result, rfl⟩

theorem tagNames (h : d.Resolves u) {alts : List Ty} (halts : d.alternatives u = .ok alts)
    (hne : alts ≠ []) : ∃ names, d.tagNames u = .ok names := by
  obtain ⟨alts', views, halts', hviews, hseen⟩ := h.alternativeViews
  cases halts.symm.trans halts'
  unfold Declarations.tagNames
  simp only [halts, hviews]
  match views, hviews, hseen with
  | [], hviews, _ =>
      cases objectViews_eq_ok hviews
      exact absurd rfl hne
  | none :: rest, _, _ => exact ⟨[], rfl⟩
  | some first :: rest, _, hseen => exact h.tagsAmong hseen first.names

end Resolves

end Declarations

end StructuralTypes
