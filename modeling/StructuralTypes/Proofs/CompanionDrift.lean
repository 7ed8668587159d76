import StructuralTypes.Finding.Wording
import StructuralTypes.Proofs.ObjectEdits
import StructuralTypes.Proofs.Resolution

namespace StructuralTypes

namespace Drift

/-- A drift says how the names of a source and of its companion differ. -/
structure Tells (drift : Drift) (source companion : List String) : Prop where
  mem_missing_iff : ∀ name, name ∈ drift.missing ↔ name ∈ source ∧ name ∉ companion
  mem_extra_iff : ∀ name, name ∈ drift.extra ↔ name ∈ companion ∧ name ∉ source
  isNone_iff : drift.isNone = true ↔ ∀ name, name ∈ source ↔ name ∈ companion

theorem isNone_between (source companion : Names) :
    (between source companion).isNone = true ↔ ∀ name, name ∈ source ↔ name ∈ companion := by
  have hempty : ∀ a b : Names, (a.diff b).isEmpty = true ↔ ∀ name ∈ a, name ∈ b := by
    intro a b
    simp [Names.isEmpty_iff]
  rw [isNone, Bool.and_eq_true, between, hempty, hempty]
  constructor
  · rintro ⟨hmissing, hextra⟩ name
    exact ⟨hmissing name, hextra name⟩
  · intro h
    exact ⟨fun name => (h name).mp, fun name => (h name).mpr⟩

theorem between_keys_tells (source companion : ObjectTy) :
    (between source.keys companion.keys).Tells source.names companion.names where
  mem_missing_iff name := by simp [between, ObjectTy.keys]
  mem_extra_iff name := by simp [between, ObjectTy.keys]
  isNone_iff := by simp [isNone_between, ObjectTy.keys]

theorem Tells.nodup {drift : Drift} {source companion : List String}
    (h : drift.Tells source companion) : (drift.missing.toList ++ drift.extra.toList).Nodup := by
  refine List.nodup_append'.mpr ⟨drift.missing.nodup, drift.extra.nodup, ?_⟩
  intro name hmissing hextra
  exact ((h.mem_extra_iff name).mp hextra).2 ((h.mem_missing_iff name).mp hmissing).1

theorem map_path_findings (drift : Drift) (subject : Option String) :
    (drift.findings subject).map Finding.path =
      (drift.missing.toList ++ drift.extra.toList).map fun name => [.field name] := by
  simp [findings, Function.comp_def]

theorem code_of_mem_findings {drift : Drift} {subject : Option String} {f : Finding}
    (h : f ∈ drift.findings subject) : f.code = .keySetDrift := by
  rcases List.mem_append.mp h with h | h
  all_goals
    obtain ⟨name, -, rfl⟩ := List.mem_map.mp h
    rfl

/-- There is one finding about each name that the two sides do not share, and none about another. -/
theorem Tells.countP_findings {drift : Drift} {source companion : List String}
    (h : drift.Tells source companion) (subject : Option String) (name : String) :
    (drift.findings subject).countP (fun f => f.path = [.field name]) =
      if name ∈ source ↔ name ∈ companion then 0 else 1 := by
  have hinj : Function.Injective fun name : String => ([.field name] : Path) := by
    intro a b hab
    simpa using hab
  calc (drift.findings subject).countP (fun f => f.path = [.field name])
      = ((drift.findings subject).map Finding.path).count [.field name] := by
        rw [List.count, List.countP_map]
        simp only [Function.comp_def, beq_eq_decide]
    _ = (drift.missing.toList ++ drift.extra.toList).count name := by
        rw [map_path_findings, List.count_map_of_injective _ _ hinj]
    _ = if name ∈ source ↔ name ∈ companion then 0 else 1 := by
        simp only [h.nodup.count, List.mem_append, ← Names.mem_iff, h.mem_missing_iff,
          h.mem_extra_iff]
        by_cases hs : name ∈ source <;> by_cases hc : name ∈ companion <;> simp [hs, hc]

end Drift

namespace Companion

variable {d : Declarations} {source : Ty} {o : ObjectTy}

theorem sourceKeys_of_resolve (h : d.resolve source = .ok o.toTy) :
    sourceKeys d source = .ok o.keys := by
  rw [sourceKeys, h]
  rfl

/-- The companion in which each of the names has the flag. -/
def withFlag (keys : Names) (flag : Bool) : MappedTy :=
  ⟨keys.toList.map fun key => (key, ⟨.literal (.bool flag), false, false⟩)⟩

theorem keys_withFlag (keys : Names) (flag : Bool) : (withFlag keys flag).keys = keys := by
  simp [withFlag, MappedTy.keys, Assoc.names, Function.comp_def]

theorem flags_withFlag (keys : Names) (flag : Bool) :
    flags (withFlag keys flag) = .ok (keys.toList.map fun key => (key, flag)) := by
  unfold flags withFlag
  induction keys.toList with
  | nil => rfl
  | cons key rest ih => simp only [List.map_cons, flagsOf, ih, Except.map]

theorem uniform_of_resolve (h : d.resolve source = .ok o.toTy) (flag : Value) :
    uniform d source flag = .ok (withFlag o.keys flag.truth) := by
  rw [uniform, sourceKeys_of_resolve h, Except.map, withFlag]

theorem drift_withFlag (h : d.resolve source = .ok o.toTy) (keys : Names) (flag : Bool) :
    drift d source (withFlag keys flag) = .ok (.between o.keys keys) := by
  rw [drift, sourceKeys_of_resolve h, Except.map, keys_withFlag]

theorem resolve_toTy (d : Declarations) (o : ObjectTy) : d.resolve o.toTy = .ok o.toTy :=
  d.resolve_of_not_named rfl

end Companion

namespace ObjectTy

variable {o o' : ObjectTy} {edits : List Edit}

theorem mem_new_iff (h : o.editAll edits = .ok o') (name : String) :
    name ∈ o'.names ∧ name ∉ o.names ↔
      name ∉ o.names ∧ ∃ spec, LastEdit edits name (.set name spec) := by
  rw [mem_names_editAll h]
  tauto

theorem mem_gone_iff (h : o.editAll edits = .ok o') (name : String) :
    name ∈ o.names ∧ name ∉ o'.names ↔ name ∈ o.names ∧ LastEdit edits name (.remove name) := by
  have hexclusive : LastEdit edits name (.remove name) →
      ¬ ∃ spec, LastEdit edits name (.set name spec) := by
    rintro hremove ⟨spec, hset⟩
    cases hremove.unique hset
  rw [mem_names_editAll h]
  tauto

end ObjectTy

namespace Companion

open ObjectTy (Edit LastEdit)

/-- The companion of an object, held against the object after any run of edits. It has the flag for
exactly the names of the object, its drift says which names are new and which are gone, whatever
happened to them in between, and there is one finding about each of these, first for the new ones
and then for those that are gone, both in ascending order. Either object may be given by a name. -/
theorem drift_after_edits {d d' : Declarations} {source source' : Ty} {o o' : ObjectTy}
    {edits : List Edit} (hsource : d.resolve source = .ok o.toTy)
    (hsource' : d'.resolve source' = .ok o'.toTy) (hedits : o.editAll edits = .ok o')
    (flag : Value) (subject : Option String) :
    ∃ companion entries drift, uniform d source flag = .ok companion ∧
      flags companion = .ok entries ∧ Companion.drift d' source' companion = .ok drift ∧
      (Assoc.names entries).Nodup ∧
      (∀ name value, (name, value) ∈ entries ↔ name ∈ o.names ∧ value = flag.truth) ∧
      drift.Tells o'.names o.names ∧
      (∀ name, name ∈ drift.missing ↔
        name ∉ o.names ∧ ∃ spec, LastEdit edits name (.set name spec)) ∧
      (∀ name, name ∈ drift.extra ↔ name ∈ o.names ∧ LastEdit edits name (.remove name)) ∧
      (drift.findings subject).map Finding.path =
        (drift.missing.toList ++ drift.extra.toList).map (fun name => [.field name]) ∧
      (∀ f ∈ drift.findings subject, f.code = .keySetDrift) ∧
      ∀ name, (drift.findings subject).countP (fun f => f.path = [.field name]) =
        if name ∈ o'.names ↔ name ∈ o.names then 0 else 1 := by
  have htells := Drift.between_keys_tells o' o
  refine ⟨withFlag o.keys flag.truth, o.keys.toList.map fun key => (key, flag.truth),
    .between o'.keys o.keys, uniform_of_resolve hsource flag, flags_withFlag _ _,
    drift_withFlag hsource' _ _, ?_, ?_, htells, ?_, ?_, Drift.map_path_findings _ subject,
    fun f => Drift.code_of_mem_findings, htells.countP_findings subject⟩
  · simpa [Assoc.names, Function.comp_def] using o.keys.nodup
  · intro name value
    simp [← Names.mem_iff, ObjectTy.keys, eq_comm]
  · intro name
    rw [htells.mem_missing_iff, ObjectTy.mem_new_iff hedits]
  · intro name
    rw [htells.mem_extra_iff, ObjectTy.mem_gone_iff hedits]

/-- A listing that is declared under two names. -/
def listing : ObjectTy :=
  ⟨[("size", ⟨.number, false, false⟩), ("mode", ⟨.string, true, false⟩),
    ("id", ⟨.string, false, true⟩)], none⟩

def listings : Declarations :=
  ⟨[("Entry", .named "Listing"), ("Listing", listing.toTy)]⟩

/-- Two names come in, one goes, and three only come and go, go and come back or are replaced. -/
def rework : List Edit :=
  [.remove "mode", .set "zone" (.bare .string), .set "owner" (.bare .string),
    .set "mode" (.bare .number), .remove "owner", .set "area" (.bare .string), .remove "id",
    .set "size" (.bare .boolean)]

theorem drift_after_edits_rework :
    ∃ o' companion drift, listing.editAll rework = .ok o' ∧
      uniform listings (.named "Entry") (.scalar (.text "on")) = .ok companion ∧
      flags companion = .ok [("id", true), ("mode", true), ("size", true)] ∧
      Companion.drift .empty o'.toTy companion = .ok drift ∧
      drift.missing.toList = ["area", "zone"] ∧ drift.extra.toList = ["id"] ∧
      drift.Tells o'.names listing.names ∧
      (drift.findings none).map Finding.path =
        [[.field "area"], [.field "zone"], [.field "id"]] := by
  have hsource : listings.resolve (.named "Entry") = .ok listing.toTy := by
    rfl
  have hedits : listing.editAll rework =
      .ok ⟨[("size", ⟨.boolean, false, false⟩), ("zone", ⟨.string, false, false⟩),
        ("mode", ⟨.number, false, false⟩), ("area", ⟨.string, false, false⟩)], none⟩ := by
    rfl
  obtain ⟨companion, entries, drift, hcompanion, hentries, hdrift, -, -, htells, -, -, hpaths, -⟩ :=
    drift_after_edits hsource (resolve_toTy .empty _) hedits (.scalar (.text "on")) none
  cases hcompanion
  cases hentries
  cases hdrift
  exact ⟨_, _, _, hedits, rfl, rfl, rfl, rfl, rfl, htells, hpaths⟩

end Companion

end StructuralTypes
