import TermMining.Proofs.Index.Survivors

/-! Histories in which every field is settled before the first document comes. What is held of a
document is then what the mappings of the present make of its texts. -/
namespace TermMining

namespace Command

def adds : Command → Bool
  | .add _ => true
  | .addAll ds => !ds.isEmpty
  | _ => false

/-- No field is defined once a document was added. -/
def IsSettled (cs : List Command) : Prop :=
  cs.Pairwise fun c d => c.adds = true → d.defines = false

theorem find?_replace_of_not_adds {live : OrderedMap String Document}
    (h : ∀ id, live.find? id = none) {c : Command} (hc : c.adds = false) (id : String) :
    (c.replace live).find? id = none := by
  cases c with
  | add d => cases hc
  | addAll ds =>
    obtain rfl : ds = [] := by simpa [adds] using hc
    exact h id
  | delete j =>
    dsimp only [replace]
    rw [OrderedMap.find?_erase, h, ite_self]
  | define m => exact h id
  | mapping field => exact h id
  | purge => exact h id

theorem defines_of_adds {c : Command} (h : c.adds = true) : c.defines = false := by
  cases c with
  | define m => cases h
  | _ => rfl

end Command

namespace Catalog

variable {k : Catalog} {v : Version} {id : String}

theorem live_step_of_not_adds (h : ∀ id, k.live.find? id = none) {c : Command}
    (hc : c.adds = false) (id : String) : (k.step c).2.live.find? id = none := by
  have hsame : k.SameIds .empty := by
    intro j
    rw [h]
    rfl
  have hnone : (c.replace .empty).find? id = none :=
    Command.find?_replace_of_not_adds (fun _ => rfl) hc id
  exact ((hsame.step c).find?_eq_none_iff id).2 hnone

/-- A catalog that tracks documents holds what its own mappings make of them. -/
theorem Tracks.live_eq {start : Catalog} {live : OrderedMap String Document}
    (h : start.Tracks k live) (id : String) :
    k.live.find? id = (live.find? id).map k.version := by
  have hversion : k.version = start.version := funext (version_congr h.analyzer h.mapping)
  rw [h.live, hversion]

theorem live_run_of_isSettled (h : ∀ id, k.live.find? id = none)
    {live : OrderedMap String Document} (hlive : ∀ id, live.find? id = none) {cs : List Command}
    (hcs : Command.IsSettled cs) (id : String) :
    (k.run cs).2.live.find? id = ((cs.foldl Command.replace live).find? id).map
      (k.run cs).2.version := by
  induction cs generalizing k live with
  | nil =>
    change k.live.find? id = (live.find? id).map k.version
    rw [h, hlive]
    rfl
  | cons c cs ih =>
    obtain ⟨hc, hcs⟩ := List.pairwise_cons.1 hcs
    cases hadds : c.adds with
    | false =>
      have hempty := Command.find?_replace_of_not_adds hlive hadds
      exact ih (live_step_of_not_adds h hadds) hempty hcs
    | true =>
      -- from here on no field is defined, so the mappings stay what they are
      have hlater : ∀ d ∈ cs, d.defines = false := fun d hd => hc d hd hadds
      have htracks := (tracks_self h hlive).step (Command.defines_of_adds hadds)
      exact (htracks.run hlater).live_eq id

theorem live_eq_survivors (own : Option Analyzer) (ms : List FieldMapping) {cs : List Command}
    (hcs : Command.IsSettled cs) (id : String) :
    ((create own ms).run cs).2.live.find? id =
      ((Command.survivors cs).find? id).map ((create own ms).run cs).2.version :=
  live_run_of_isSettled (live_create own ms) (fun _ => rfl) hcs id

theorem exists_version_eq (own : Option Analyzer) (ms : List FieldMapping) {cs : List Command}
    (hcs : Command.IsSettled cs) (hv : ((create own ms).run cs).2.live.find? id = some v) :
    ∃ d, v = ((create own ms).run cs).2.version d := by
  rw [live_eq_survivors own ms hcs] at hv
  obtain ⟨d, -, rfl⟩ := Option.map_eq_some_iff.1 hv
  exact ⟨d, rfl⟩

theorem terms_version (k : Catalog) (d : Document) (f : String) :
    (k.version d).terms f = (Entry.of k.analyzer (k.mapping f) (d.texts f)).terms := by
  unfold Version.terms
  cases hd : (d.texts f).isEmpty with
  | false =>
    rw [version_eq_some hd]
    rfl
  | true =>
    rw [version_eq_none hd, List.isEmpty_iff.1 hd]
    exact (ite_self []).symm

theorem values_version (k : Catalog) (d : Document) (f : String) :
    (k.version d).values f = if (k.mapping f).stored then d.texts f else [] := by
  unfold Version.values Version.stored
  cases hd : (d.texts f).isEmpty with
  | false =>
    rw [version_eq_some hd, Option.bind_some]
    unfold Entry.of
    dsimp only
    split <;> rfl
  | true =>
    rw [version_eq_none hd, List.isEmpty_iff.1 hd]
    exact (ite_self []).symm

/-- The texts that are read back of an indexed field have the terms that were taken in of it, unless
there are none. -/
theorem values_version_cases {a : Analyzer} (ha : k.analyzer = some a)
    (hn : (k.mapping f).name = f) (hi : (k.mapping f).indexed = true) (d : Document) :
    (k.version d).values f = [] ∨
      ((k.version d).values f).flatMap (a.fieldTerms f) = (k.version d).terms f := by
  rw [values_version, terms_version, ha]
  split
  · right
    unfold Entry.of FieldMapping.terms
    dsimp only
    rw [if_pos hi, Option.getD_some, hn]
  · exact Or.inl rfl

end Catalog
end TermMining
