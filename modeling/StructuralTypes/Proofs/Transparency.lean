import StructuralTypes.Proofs.Containment

namespace StructuralTypes.Assignability

open Declarations

variable {setting : Setting} {s s' t t' : Ty}

/-- A well-formed source in the place of another. -/
structure Replaces (d : Declarations) (s s' : Ty) : Prop where
  wellFormed : s'.WellFormed
  interchangeable : d.Interchangeable s s'

/-- A target in the place of another, without "unknown" in its unions. -/
structure ReplacesTarget (d : Declarations) (t t' : Ty) : Prop extends Replaces d t t' where
  known : d.Known t'

/-- Types that are contained one in the other, or that take the places of assignable ones. -/
inductive Transported (setting : Setting) (s' t' : Ty) : Prop
  | contained (h : setting.declarations.Contained s' t')
  | assignable {s t : Ty} (hss : Replaces setting.declarations s s')
      (htt : ReplacesTarget setting.declarations t t') (h : Assignable setting s t)

theorem carries_transported : Carries (Replaces setting.declarations)
    (ReplacesTarget setting.declarations) (Assignable setting) (Transported setting) :=
  fun _ _ _ _ hss htt h => .assignable hss htt h

section Replaces

variable {d : Declarations} {u x : Ty}

theorem Replaces.trans (h : Replaces d s t) (htu : d.Interchangeable t u) : Replaces d s u :=
  ⟨htu.wellFormed_iff.mp h.wellFormed, h.interchangeable.trans htu⟩

theorem ReplacesTarget.trans (hd : d.WellFormed) (h : ReplacesTarget d s t)
    (htu : d.Interchangeable t u) : ReplacesTarget d s u where
  toReplaces := h.toReplaces.trans htu
  known := h.known.of_interchangeable hd (htu.wellFormed_iff.mp h.wellFormed) htu

theorem Replaces.structure (hd : d.WellFormed) (h : Replaces d s t) (hx : d.StandsFor s x)
    (hy : d.StandsFor t t) : Replaces d x t ∧ Ty.Corresponds (Replaces d) x t := by
  have hs : s.WellFormed := h.interchangeable.wellFormed_iff.mpr h.wellFormed
  obtain ⟨y, hy', hxy⟩ := (h.interchangeable.linked hd).forth x hx
  cases hy.unique hy'
  refine ⟨⟨h.wellFormed, (hx.interchangeable hd hs).symm.trans h.interchangeable⟩, ?_⟩
  exact hxy.mono_parts fun a _ b hb hab => ⟨h.wellFormed.part hb, hab⟩

end Replaces

section Transported

theorem Transported.wellFormed (h : Transported setting s t) : s.WellFormed ∧ t.WellFormed := by
  cases h with
  | contained h => exact ⟨h.wellFormed, h.wellFormed'⟩
  | assignable hss htt _ => exact ⟨hss.wellFormed, htt.wellFormed⟩

theorem Transported.of_interchangeable (hd : setting.declarations.WellFormed)
    (hss : setting.declarations.Interchangeable s s')
    (htt : setting.declarations.Interchangeable t t') (h : Transported setting s t) :
    Transported setting s' t' := by
  cases h with
  | contained h => exact .contained (h.of_interchangeable hd hss htt)
  | assignable hs ht h => exact .assignable (hs.trans hss) (ht.trans hd htt) h

theorem Transported.fits (hd : setting.declarations.WellFormed)
    (hx : setting.declarations.StandsFor s' s') (hy : setting.declarations.StandsFor t' t')
    (h : Transported setting s' t') : FitsByParts setting.policy (Transported setting) s' t' := by
  cases h with
  | contained h => exact fits_of_contained hd (fun _ _ => .contained) hx hy h
  | @assignable s t hss htt h =>
      obtain ⟨x, y, hsx, hty, hfits⟩ := assignable_iff_structures.mp h
      obtain ⟨hxs, hxs'⟩ := hss.structure hd hsx hx
      obtain ⟨hyt, hyt'⟩ := htt.toReplaces.structure hd hty hy
      have hyt'' : Ty.Corresponds (ReplacesTarget setting.declarations) y t' :=
        hyt'.mono_parts fun a _ b hb hab => ⟨hab, htt.known.part ⟨t', hy, hb⟩⟩
      rcases hfits.equal_or_byParts with hequal | hfits
      · -- equal structures have been replaced by interchangeable ones
        have hequal' : setting.declarations.Interchangeable x y :=
          interchangeable_of_equal ⟨hxs.interchangeable.wellFormed_iff.mpr hss.wellFormed,
            hyt.interchangeable.wellFormed_iff.mpr htt.wellFormed, hequal⟩
        have hst : setting.declarations.Interchangeable s' t' :=
          (hxs.interchangeable.symm.trans hequal').trans hyt.interchangeable
        exact fits_of_contained hd (fun _ _ => .contained) hx hy
          (hst.contained hd hss.wellFormed htt.wellFormed htt.known)
      · exact hfits.transfer carries_transported hss.wellFormed htt.wellFormed hxs
          ⟨hyt, htt.known⟩ hxs'.loosened hyt''

theorem upheld_transported (hd : setting.declarations.WellFormed) :
    Upheld setting.declarations (FitsByParts setting.policy (Transported setting))
      (Transported setting) := by
  refine upheld_of_structures (fun s t s' t' h hss htt => ?_) fun x y h hx hy => h.fits hd hx hy
  obtain ⟨hs, ht⟩ := h.wellFormed
  exact h.of_interchangeable hd (hss.interchangeable hd hs) (htt.interchangeable hd ht)

theorem tolerant_transported (hd : setting.declarations.WellFormed) :
    Tolerant setting (Transported setting) :=
  (upheld_transported hd).tolerant

theorem Judged.isAccepted_iff_transported {v : Verdict} (hd : setting.declarations.WellFormed)
    (hs : s.WellFormed) (ht : t.WellFormed) (hknown : setting.declarations.Known t)
    (h : Judged setting s t v) : v.isAccepted = true ↔ Transported setting s t := by
  constructor
  · intro hv
    rcases h with h | ⟨rfl, -⟩
    · exact .assignable ⟨hs, .refl s⟩ ⟨⟨ht, .refl t⟩, hknown⟩
        ((isAccepted_iff_assignable hd hs ht h).mp hv)
    · exact .contained ((Interchangeable.refl s).contained hd hs hs hknown)
  · exact fun htransported =>
      (tolerant_transported hd).isAccepted_of_judged hd hs ht htransported h

end Transported

/-- Types and their unfoldings are accepted alike, where no union has "unknown" as a member. -/
theorem check_unfolded (hd : setting.declarations.WellFormed) (hs : s.WellFormed)
    (ht : t.WellFormed) (hknown : setting.declarations.Known t)
    (hss : setting.declarations.Unfolds s s') (htt : setting.declarations.Unfolds t t')
    {v v' : Verdict} (h : Judged setting s t v) (h' : Judged setting s' t' v') :
    v.isAccepted = v'.isAccepted := by
  have hss' := hss.interchangeable hd hs
  have htt' := htt.interchangeable hd ht
  have hs' := hss.wellFormed hd hs
  have ht' := htt.wellFormed hd ht
  have hknown' := hknown.of_interchangeable hd ht' htt'
  rw [Bool.eq_iff_iff, h.isAccepted_iff_transported hd hs ht hknown,
    h'.isAccepted_iff_transported hd hs' ht' hknown']
  exact ⟨(·.of_interchangeable hd hss' htt'), (·.of_interchangeable hd hss'.symm htt'.symm)⟩

def leaf : Ty :=
  .object [("value", ⟨.number, false, false⟩)] none

def branch : List (String × Slot Ty) :=
  [("left", ⟨.named "Tree", false, false⟩), ("right", ⟨.named "Tree", false, false⟩)]

/-- Trees that branch in two, and two names for their leaves. -/
def trees : Declarations :=
  .ofList [
    ("Tree", .union [.named "Leaf", .mapped branch]),
    ("Leaf", leaf),
    ("Bud", .named "Leaf")]

theorem check_unfolded_trees :
    trees.Unfolds (.named "Tree") (.union [.named "Leaf", .object branch none]) ∧
      trees.Unfolds (.union [.named "Leaf", .named "Bud", .mapped branch])
        (.union [leaf, .mapped branch]) ∧
      ∃ v v', Setting.check ⟨{}, trees⟩ (.named "Tree")
          (.union [.named "Leaf", .named "Bud", .mapped branch]) = .ok v ∧
        Setting.check ⟨{}, trees⟩ (.union [.named "Leaf", .object branch none])
          (.union [leaf, .mapped branch]) = .ok v' ∧ v.isAccepted = v'.isAccepted := by
  have hss : trees.Unfolds (.named "Tree") (.union [.named "Leaf", .object branch none]) := by
    refine .name rfl (.union [(.named "Leaf", .named "Leaf"), (.mapped branch, .object branch none)]
      ?_ rfl)
    simp only [List.forall_mem_cons]
    exact ⟨.refl _, .table (.refl _), by simp⟩
  have htt : trees.Unfolds (.union [.named "Leaf", .named "Bud", .mapped branch])
      (.union [leaf, .mapped branch]) := by
    refine .union [(.named "Leaf", leaf), (.named "Bud", leaf), (.mapped branch, .mapped branch)]
      ?_ rfl
    simp only [List.forall_mem_cons]
    exact ⟨.name rfl (.refl _), .name rfl (.refl _), .refl _, by simp⟩
  have hv : ∃ v, Setting.check ⟨{}, trees⟩ (.named "Tree")
      (.union [.named "Leaf", .named "Bud", .mapped branch]) = .ok v := ⟨_, rfl⟩
  have hv' : ∃ v, Setting.check ⟨{}, trees⟩ (.union [.named "Leaf", .object branch none])
      (.union [leaf, .mapped branch]) = .ok v := ⟨_, rfl⟩
  obtain ⟨v, hv⟩ := hv
  obtain ⟨v', hv'⟩ := hv'
  have hd : (Setting.mk {} trees).declarations.WellFormed := by decide
  have hknown : trees.Known (.union [.named "Leaf", .named "Bud", .mapped branch]) :=
    known_of_pool (by decide)
  exact ⟨hss, htt, v, v', hv, hv', check_unfolded hd (by decide) (by decide) hknown hss htt
    (Or.inl hv) (Or.inl hv')⟩

end StructuralTypes.Assignability
