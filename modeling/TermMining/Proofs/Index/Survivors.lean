import Mathlib.Data.List.Forall2
import Mathlib.Data.List.Nodup
import TermMining.Proofs.Index.Versions

/-! The documents that survive a history. While no field is defined anew, the survivors alone lead
to the versions that the whole history leads to. -/
namespace TermMining

/-- The same document, perhaps with its fields in another order. -/
structure Document.Reorders (d e : Document) : Prop where
  id : d.id = e.id
  fields : d.fields.entries.Perm e.fields.entries

namespace Command

def defines : Command → Bool
  | .define _ => true
  | _ => false

def replace (live : OrderedMap String Document) : Command → OrderedMap String Document
  | .add d => live.insert d.id d
  | .addAll ds => ds.foldl (fun live d => live.insert d.id d) live
  | .delete id => live.erase id
  | _ => live

/-- The documents that are live after the commands, each as it was added last. -/
def survivors (cs : List Command) : OrderedMap String Document := cs.foldl replace .empty

/-- Documents stand under their ids. -/
def IsKeyed (live : OrderedMap String Document) : Prop :=
  ∀ id d, live.find? id = some d → d.id = id

section IsKeyed

variable {live : OrderedMap String Document}

theorem IsKeyed.insert (h : IsKeyed live) (d : Document) : IsKeyed (live.insert d.id d) := by
  intro id e he
  rw [OrderedMap.find?_insert] at he
  split at he
  · next hid => rw [hid, ← Option.some.inj he]
  · exact h id e he

theorem IsKeyed.foldl_insert (h : IsKeyed live) (ds : List Document) :
    IsKeyed (ds.foldl (fun live d => live.insert d.id d) live) := by
  induction ds generalizing live with
  | nil => exact h
  | cons d ds ih => exact ih (h.insert d)

theorem IsKeyed.replace (h : IsKeyed live) (c : Command) : IsKeyed (c.replace live) := by
  cases c with
  | add d => exact h.insert d
  | addAll ds => exact h.foldl_insert ds
  | delete id =>
    intro j e he
    dsimp only [Command.replace] at he
    rw [OrderedMap.find?_erase] at he
    split at he
    · cases he
    · exact h j e he
  | define m => exact h
  | mapping field => exact h
  | purge => exact h

theorem IsKeyed.foldl_replace (h : IsKeyed live) (cs : List Command) :
    IsKeyed (cs.foldl Command.replace live) := by
  induction cs generalizing live with
  | nil => exact h
  | cons c cs ih => exact ih (h.replace c)

theorem isKeyed_survivors (cs : List Command) : IsKeyed (survivors cs) := by
  have hempty : IsKeyed .empty := fun id d hd => nomatch hd
  exact hempty.foldl_replace cs

theorem IsKeyed.map_id_values (h : IsKeyed live) : live.values.map (·.id) = live.keys := by
  unfold OrderedMap.values OrderedMap.keys
  rw [List.map_map]
  exact List.map_congr_left fun e he => h e.1 e.2 (live.find?_eq_some_iff.2 he)

theorem IsKeyed.find?_eq_some_iff (h : IsKeyed live) {id : String} {d : Document} :
    live.find? id = some d ↔ d ∈ live.values ∧ d.id = id := by
  rw [OrderedMap.find?_eq_some_iff, OrderedMap.values, List.mem_map]
  constructor
  · intro hmem
    exact ⟨⟨(id, d), hmem, rfl⟩, h id d (live.find?_eq_some_iff.2 hmem)⟩
  · rintro ⟨⟨e, he, rfl⟩, rfl⟩
    have hid : e.2.id = e.1 := h e.1 e.2 (live.find?_eq_some_iff.2 he)
    rw [hid]
    exact he

end IsKeyed

/-- Documents with different ids all survive being added one after the other. -/
theorem find?_foldl_insert {ds : List Document} (hn : (ds.map (·.id)).Nodup)
    (live : OrderedMap String Document) {id : String} {d : Document} :
    (ds.foldl (fun live d => live.insert d.id d) live).find? id = some d ↔
      (d ∈ ds ∧ d.id = id) ∨ ((∀ e ∈ ds, e.id ≠ id) ∧ live.find? id = some d) := by
  induction ds generalizing live with
  | nil => simp
  | cons a ds ih =>
    obtain ⟨ha, hn⟩ := List.nodup_cons.1 hn
    rw [List.foldl_cons, ih hn, OrderedMap.find?_insert, List.forall_mem_cons, List.mem_cons]
    by_cases hid : a.id = id
    · have hnone : ∀ e ∈ ds, e.id ≠ id := fun e he heq =>
        ha (List.mem_map.2 ⟨e, he, heq.trans hid.symm⟩)
      rw [if_pos hid.symm]
      grind
    · rw [if_neg (Ne.symm hid)]
      grind

theorem find?_survivors_map_add {ds : List Document} (hn : (ds.map (·.id)).Nodup) {id : String}
    {d : Document} : (survivors (ds.map .add)).find? id = some d ↔ d ∈ ds ∧ d.id = id := by
  have hfold : survivors (ds.map .add) =
      ds.foldl (fun live d => live.insert d.id d) .empty := by
    unfold survivors
    rw [List.foldl_map]
    rfl
  rw [hfold, find?_foldl_insert hn]
  simp

theorem exists_of_mem_of_forall₂ {α β : Type} {R : α → β → Prop} {l : List α} {m : List β}
    (h : List.Forall₂ R l m) {a : α} (ha : a ∈ l) : ∃ b ∈ m, R a b := by
  induction h with
  | nil => cases ha
  | cons hab _ ih =>
    rcases List.mem_cons.1 ha with rfl | ha
    · exact ⟨_, List.mem_cons_self, hab⟩
    · obtain ⟨b, hb, hR⟩ := ih ha
      exact ⟨b, List.mem_cons_of_mem _ hb, hR⟩

theorem map_id_eq {ds es : List Document} (h : List.Forall₂ Document.Reorders ds es) :
    ds.map (·.id) = es.map (·.id) := by
  have hids : List.Forall₂ (· = ·) (ds.map (·.id)) (es.map (·.id)) := by
    rw [List.forall₂_map_left_iff, List.forall₂_map_right_iff]
    exact h.imp fun _ _ hde => hde.id
  rwa [List.forall₂_eq_eq_eq] at hids

theorem survivors_replay {cs : List Command} {ds es : List Document}
    (hes : es.Perm (survivors cs).values) (hds : List.Forall₂ Document.Reorders ds es)
    (id : String) : Option.Rel Document.Reorders ((survivors (ds.map .add)).find? id)
      ((survivors cs).find? id) := by
  have hkeyed := isKeyed_survivors cs
  have hn : (ds.map (·.id)).Nodup := by
    rw [map_id_eq hds, (hes.map _).nodup_iff, hkeyed.map_id_values]
    exact (survivors cs).keys_nodup
  cases hd : (survivors (ds.map .add)).find? id with
  | some d =>
    obtain ⟨hmem, hid⟩ := (find?_survivors_map_add hn).1 hd
    obtain ⟨e, he, hde⟩ := exists_of_mem_of_forall₂ hds hmem
    have hfind := hkeyed.find?_eq_some_iff.2 ⟨hes.mem_iff.1 he, hde.id.symm.trans hid⟩
    rw [hfind]
    exact Option.Rel.some hde
  | none =>
    cases he : (survivors cs).find? id with
    | none => exact Option.Rel.none
    | some e =>
      obtain ⟨hmem, hid⟩ := hkeyed.find?_eq_some_iff.1 he
      have hback : List.Forall₂ (flip Document.Reorders) es ds := List.Forall₂.flip hds
      obtain ⟨d, hdmem, hde⟩ := exists_of_mem_of_forall₂ hback (hes.mem_iff.2 hmem)
      have hfind := (find?_survivors_map_add hn).2 ⟨hdmem, hde.id.trans hid⟩
      rw [hd] at hfind
      cases hfind

end Command

theorem Document.Reorders.texts_eq {d e : Document} (h : d.Reorders e) (f : String) :
    d.texts f = e.texts f := by
  have hfind : d.fields.find? f = e.fields.find? f := by
    ext v
    rw [OrderedMap.find?_eq_some_iff, OrderedMap.find?_eq_some_iff]
    exact h.fields.mem_iff
  unfold Document.texts
  rw [hfind]

namespace Catalog

/-- A catalog has the analyzer and the mappings of `start`, and its live versions are what these
make of the live documents. -/
structure Tracks (start k : Catalog) (live : OrderedMap String Document) : Prop where
  analyzer : k.analyzer = start.analyzer
  mapping : ∀ f, k.mapping f = start.mapping f
  live : ∀ id, k.live.find? id = (live.find? id).map start.version

variable {start k : Catalog} {live : OrderedMap String Document}

theorem version_congr {l : Catalog} (ha : k.analyzer = l.analyzer)
    (hm : ∀ f, k.mapping f = l.mapping f) (d : Document) : k.version d = l.version d := by
  funext f
  unfold version
  rw [ha, hm]

/-- The order of the fields of a document does not show in its version. -/
theorem version_reorders {d e : Document} (h : d.Reorders e) (k : Catalog) :
    k.version d = k.version e := by
  funext f
  unfold version
  rw [h.texts_eq]

theorem tracks_self (h : ∀ id, k.live.find? id = none) (hlive : ∀ id, live.find? id = none) :
    k.Tracks k live where
  analyzer := rfl
  mapping _ := rfl
  live id := by rw [h, hlive, Option.map_none]

theorem Tracks.add (h : start.Tracks k live) (d : Document) :
    start.Tracks (k.add d) (live.insert d.id d) where
  analyzer := by rw [analyzer_add, h.analyzer]
  mapping f := by rw [mapping_add, h.mapping]
  live id := by
    rw [live_add, OrderedMap.find?_insert, version_congr h.analyzer h.mapping]
    split
    · rfl
    · exact h.live id

theorem Tracks.foldl_add (h : start.Tracks k live) (ds : List Document) :
    start.Tracks (ds.foldl Catalog.add k) (ds.foldl (fun live d => live.insert d.id d) live) := by
  induction ds generalizing k live with
  | nil => exact h
  | cons d ds ih => exact ih (h.add d)

theorem Tracks.step (h : start.Tracks k live) {c : Command} (hc : c.defines = false) :
    start.Tracks (k.step c).2 (c.replace live) := by
  cases c with
  | define m => cases hc
  | mapping field =>
    have hmapping : ∀ f, (k.openField field).mapping f = start.mapping f := by
      intro f
      rw [mapping_openField, h.mapping]
    exact ⟨h.analyzer, hmapping, h.live⟩
  | add d => exact h.add d
  | addAll ds => exact h.foldl_add ds
  | delete id =>
    dsimp only [Catalog.step, Command.replace]
    constructor
    · rw [analyzer_delete, h.analyzer]
    · intro f
      rw [mapping_delete, h.mapping]
    · intro j
      rw [live_delete, OrderedMap.find?_erase]
      split
      · rfl
      · exact h.live j
  | purge => exact ⟨h.analyzer, h.mapping, h.live⟩

theorem Tracks.run (h : start.Tracks k live) {cs : List Command}
    (hcs : ∀ c ∈ cs, c.defines = false) :
    start.Tracks (k.run cs).2 (cs.foldl Command.replace live) := by
  induction cs generalizing k live with
  | nil => exact h
  | cons c cs ih =>
    exact ih (h.step (hcs c List.mem_cons_self)) fun d hd => hcs d (List.mem_cons_of_mem c hd)

def SameIds (k : Catalog) (live : OrderedMap String Document) : Prop :=
  ∀ id, (k.live.find? id).isSome = (live.find? id).isSome

theorem SameIds.find?_eq_none_iff (h : k.SameIds live) (id : String) :
    k.live.find? id = none ↔ live.find? id = none := by
  rw [← Option.not_isSome_iff_eq_none, h id, Option.not_isSome_iff_eq_none]

theorem SameIds.add (h : k.SameIds live) (d : Document) :
    (k.add d).SameIds (live.insert d.id d) := by
  intro id
  rw [live_add, OrderedMap.find?_insert]
  split
  · rfl
  · exact h id

theorem SameIds.foldl_add (h : k.SameIds live) (ds : List Document) :
    (ds.foldl Catalog.add k).SameIds (ds.foldl (fun live d => live.insert d.id d) live) := by
  induction ds generalizing k live with
  | nil => exact h
  | cons d ds ih => exact ih (h.add d)

theorem SameIds.step (h : k.SameIds live) (c : Command) :
    (k.step c).2.SameIds (c.replace live) := by
  cases c with
  | add d => exact h.add d
  | addAll ds => exact h.foldl_add ds
  | delete id =>
    intro j
    dsimp only [Catalog.step, Command.replace]
    rw [live_delete, OrderedMap.find?_erase]
    split
    · rfl
    · exact h j
  | define m => exact h
  | mapping field => exact h
  | purge => exact h

theorem SameIds.run (h : k.SameIds live) (cs : List Command) :
    (k.run cs).2.SameIds (cs.foldl Command.replace live) := by
  induction cs generalizing k live with
  | nil => exact h
  | cons c cs ih => exact ih (h.step c)

theorem run_concat (k : Catalog) (cs : List Command) (c : Command) :
    (k.run (cs ++ [c])).2 = ((k.run cs).2.step c).2 := by
  induction cs generalizing k with
  | nil => rfl
  | cons d cs ih => exact ih (k.step d).2

theorem marked_foldl_add (ds : List Document) (k : Catalog) (id : String)
    (h : k.marked.find? id = none) : (ds.foldl Catalog.add k).marked.find? id = none := by
  induction ds generalizing k with
  | nil => exact h
  | cons d ds ih =>
    apply ih
    change (k.marked.erase d.id).find? id = none
    rw [OrderedMap.find?_erase, h, ite_self]

theorem run_map_add (k : Catalog) (ds : List Document) :
    (k.run (ds.map .add)).2 = ds.foldl Catalog.add k := by
  induction ds generalizing k with
  | nil => rfl
  | cons d ds ih => exact ih (k.add d)

theorem foldl_define_eq (ms : List FieldMapping) (k : Catalog) :
    ∃ mappings, ms.foldl define k = { k with mappings } := by
  induction ms generalizing k with
  | nil => exact ⟨k.mappings, rfl⟩
  | cons m ms ih => exact ih (k.define m)

variable (own : Option Analyzer) (ms : List FieldMapping)

theorem live_create (id : String) : (create own ms).live.find? id = none := by
  obtain ⟨mappings, hk⟩ := foldl_define_eq ms ⟨own, .empty, .empty, .empty⟩
  rw [create, hk]
  rfl

theorem tracks_create : (create own ms).Tracks (create own ms) .empty :=
  tracks_self (live_create own ms) fun _ => rfl

/-- The survivors are the documents that are live, whatever was defined on the way. -/
theorem sameIds_survivors (cs : List Command) :
    ((create own ms).run cs).2.SameIds (Command.survivors cs) := by
  have hempty : (create own ms).SameIds .empty := by
    intro id
    rw [live_create]
    rfl
  exact hempty.run cs

theorem marked_create (id : String) : (create own ms).marked.find? id = none := by
  obtain ⟨mappings, hk⟩ := foldl_define_eq ms ⟨own, .empty, .empty, .empty⟩
  rw [create, hk]
  rfl

variable {cs : List Command} {ds es : List Document}

theorem live_replay (hcs : ∀ c ∈ cs, c.defines = false)
    (hes : es.Perm (Command.survivors cs).values) (hds : List.Forall₂ Document.Reorders ds es)
    (id : String) : ((create own ms).run (cs ++ [.purge])).2.live.find? id =
      ((create own ms).run (ds.map .add)).2.live.find? id := by
  have hwhole := (tracks_create own ms).run hcs
  have hadds : ∀ c ∈ ds.map Command.add, c.defines = false := by
    intro c hc
    obtain ⟨d, -, rfl⟩ := List.mem_map.1 hc
    rfl
  have halone := (tracks_create own ms).run hadds
  have hsame := Command.survivors_replay hes hds id
  have hlive : ((create own ms).run (cs ++ [.purge])).2.live = ((create own ms).run cs).2.live := by
    rw [run_concat]
    rfl
  rw [hlive, hwhole.live, halone.live]
  change ((Command.survivors cs).find? id).map _ =
    ((Command.survivors (ds.map .add)).find? id).map _
  generalize (Command.survivors cs).find? id = e at hsame ⊢
  generalize (Command.survivors (ds.map .add)).find? id = d at hsame ⊢
  cases hsame with
  | none => rfl
  | some hde => rw [Option.map_some, Option.map_some, version_reorders hde]

/-- The survivors alone lead to the versions that the whole history leads to. -/
theorem held?_replay (hcs : ∀ c ∈ cs, c.defines = false)
    (hes : es.Perm (Command.survivors cs).values) (hds : List.Forall₂ Document.Reorders ds es)
    (id : String) : ((create own ms).run (cs ++ [.purge])).2.held? id =
      ((create own ms).run (ds.map .add)).2.held? id := by
  have hpurged : ((create own ms).run (cs ++ [.purge])).2.marked.find? id = none := by
    rw [run_concat]
    rfl
  have hfresh : ((create own ms).run (ds.map .add)).2.marked.find? id = none := by
    rw [run_map_add]
    exact marked_foldl_add ds _ id (marked_create own ms id)
  unfold held?
  rw [live_replay own ms hcs hes hds, hpurged, hfresh]

end Catalog
end TermMining
