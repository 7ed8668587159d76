import StructuralTypes.Proofs.Runs

namespace StructuralTypes.Assignability

variable {policy : Policy} {d : Declarations} {s t : Ty} {A B : Assumptions} {v : Verdict}

theorem Assumptions.Grows.suffix (h : A.Grows B) : A <:+ B := by
  obtain ⟨added, rfl, -⟩ := h
  exact List.suffix_append added A

/-- The rules ask for a fit of the source with some member of the target. -/
def TriesMembers (policy : Policy) (s t : Ty) : Prop :=
  ∃ members, rule policy s.expanded t.expanded = .someMember members

theorem judgeNamed_restores {judge : Judge} (hs : s.WellFormed) (ht : t.WellFormed)
    (hkeeps : ∀ s' t', d.resolve s = .ok s' → d.resolve t = .ok t' → Keeps judge s' t')
    (hA : A.WellFormed) (h : judgeNamed d judge s t A = .ok (v, B)) (hv : v.isAccepted = false) :
    B = A := by
  rcases judgeNamed_eq_ok h with ⟨-, rfl, -⟩ | ⟨hholds, s', t', C, hs', ht', hrun, rfl⟩
  · cases hv
  · -- what was taken on since the start begins with the pair itself
    have hcons := Assumptions.grows_cons hs ht hholds
    have hgrows := hcons.trans (hkeeps s' t' hs' ht' _ v C (hcons.wellFormed hA) hrun)
    rw [hv, if_neg Bool.false_ne_true, hgrows.rollback hA]

theorem judgeRequirement_restores {judge : Judge} {members : List Ty}
    (hkeeps : ∀ m ∈ members, Keeps judge s m) (hA : A.WellFormed)
    (h : judgeRequirement judge s t A (.someMember members) = .ok (v, B))
    (hv : v.isAccepted = false) : B = A := by
  rcases judgeSome_eq_ok hkeeps hA h with ⟨rfl, -⟩ | ⟨hB, -⟩
  · cases hv
  · exact hB

/-- A run keeps all assumptions that it starts with. When it refuses a pair with a name, or a source
for which the members of the target were tried, it ends with exactly these. -/
theorem search_restores {depth : Nat} (hd : d.WellFormed) (hs : s.WellFormed) (ht : t.WellFormed)
    (hA : A.WellFormed) (h : search (rule policy) d depth s t A = .ok (v, B)) :
    A <:+ B ∧
      (v.isAccepted = false →
        s.isNamed = true ∨ t.isNamed = true ∨ TriesMembers policy s t → B = A) := by
  refine ⟨(search_keeps hd depth hs ht A v B hA h).suffix, fun hv hpoint => ?_⟩
  cases depth with
  | zero => cases h
  | succ depth =>
      rcases search_succ_eq_ok h with ⟨-, -, ⟨-, hrun⟩ | ⟨hsn, htn, hrun⟩⟩
      · exact judgeNamed_restores hs ht
          (fun s' t' hs' ht' => search_keeps hd depth (hd.resolve hs hs') (hd.resolve ht ht'))
          hA hrun hv
      · have htries : TriesMembers policy s t := by simpa [hsn, htn] using hpoint
        obtain ⟨members, hrule⟩ := htries
        have hkeeps : ∀ m ∈ members, Keeps (search (rule policy) d depth) s.expanded m :=
          fun m hm => search_keeps_of_asks hd depth hs ht (by rw [hrule]; exact ⟨rfl, hm⟩)
        rw [hrule] at hrun
        exact judgeRequirement_restores hkeeps hA hrun hv

/-- Something that was sent, with the name of its sender's type. -/
def sent (sender : String) (weight : Ty) : Ty :=
  .object [("sender", ⟨.named sender, false, false⟩), ("weight", ⟨weight, false, false⟩)] none

/-- The senders of letters and parcels fit, their weights do not. -/
def post : Declarations :=
  let called : Ty := .object [("name", ⟨.string, false, false⟩)] none
  .ofList [("Letter", sent "Person" .string), ("Parcel", sent "Company" .number),
    ("Person", called), ("Company", called)]

/-- When the weights are refused the senders have been taken to fit. The objects alone leave that
pair behind; their names, and a union in the place of the parcel, do not. -/
theorem search_restores_post :
    let earlier : Assumptions := [(.named "Parcel", .named "Letter")]
    let run := search (rule {}) post 4
    (∃ v, run (sent "Person" .string) (sent "Company" .number) earlier =
      .ok (v, (.named "Person", .named "Company") :: earlier)) ∧
    (∃ v, v.isAccepted = false ∧
      run (.named "Letter") (.named "Parcel") earlier = .ok (v, earlier)) ∧
    ∃ v, v.isAccepted = false ∧
      run (sent "Person" .string) (.union [sent "Company" .number, .number]) earlier =
        .ok (v, earlier) := by
  intro earlier run
  have hd : post.WellFormed := by decide
  have hearlier : earlier.WellFormed := List.forall_mem_singleton.mpr ⟨by decide, by decide⟩
  have hnames : ∃ v B, run (.named "Letter") (.named "Parcel") earlier = .ok (v, B) ∧
      v.isAccepted = false := ⟨_, _, rfl, rfl⟩
  have hunion : ∃ v B, run (sent "Person" .string) (.union [sent "Company" .number, .number])
      earlier = .ok (v, B) ∧ v.isAccepted = false := ⟨_, _, rfl, rfl⟩
  refine ⟨⟨_, rfl⟩, ?_, ?_⟩
  · obtain ⟨v, B, hrun, hv⟩ := hnames
    have hB : B = earlier :=
      (search_restores hd (by decide) (by decide) hearlier hrun).2 hv (Or.inl rfl)
    exact ⟨v, hv, hB ▸ hrun⟩
  · obtain ⟨v, B, hrun, hv⟩ := hunion
    have hB : B = earlier := (search_restores hd (by decide) (by decide) hearlier hrun).2 hv
      (Or.inr (Or.inr ⟨_, rfl⟩))
    exact ⟨v, hv, hB ▸ hrun⟩

end StructuralTypes.Assignability
