import Mathlib.Data.Set.Card
import TermMining.Proofs.Index.Integrity
import TermMining.Proofs.Tally

/-! Indexes of catalogs with the same versions hold the same, and while no document is marked as
deleted the terms counted in the figures are those that occur. -/
namespace TermMining

/-- The records keep the same of a document. -/
structure DocumentRecord.Same (r s : DocumentRecord) : Prop where
  live : r.live = s.live
  stored : ∀ f, r.stored.find? f = s.stored.find? f
  vectors : ∀ f, r.vectors.find? f = s.vectors.find? f

namespace Index

/-- The indexes have the same documents with the same records, and postings of the same terms in the
same documents, though perhaps in another order. -/
structure SameContents (ix jx : Index) : Prop where
  docs : ∀ id, Option.Rel DocumentRecord.Same (ix.docs.find? id) (jx.docs.find? id)
  postings : ∀ t, Option.Rel (fun ps qs => ∀ id, OrderedMap.find? ps id = OrderedMap.find? qs id)
    (ix.postingsOf? t) (jx.postingsOf? t)

variable {ix jx : Index} {k l : Catalog}

theorem IsOccupied.postingsOf?_eq_none (h : ix.IsOccupied) {t : Term}
    (hnone : ∀ id, ix.posting? t id = none) : ix.postingsOf? t = none := by
  cases hps : ix.postingsOf? t with
  | none => rfl
  | some ps =>
    obtain ⟨id, p, hp⟩ := OrderedMap.size_ne_zero_iff.1 (h t ps hps)
    have hposting := hnone id
    rw [posting?, hps, Option.bind_some, hp] at hposting
    cases hposting

theorem sameContents_of_realizes (h : ix.Realizes k) (hj : jx.Realizes l) (hix : ix.IsOccupied)
    (hjx : jx.IsOccupied) (hheld : ∀ id, k.held? id = l.held? id) : ix.SameContents jx := by
  have hposting : ∀ t id, ix.posting? t id = jx.posting? t id := by
    intro t id
    rw [h.posting, hj.posting, hheld]
  constructor
  · intro id
    have hd := h.docs id
    have hdj := hj.docs id
    rw [hheld] at hd
    generalize ix.docs.find? id = r at hd ⊢
    generalize jx.docs.find? id = s at hdj ⊢
    generalize l.held? id = w at hd hdj
    cases hd with
    | none =>
      cases hdj
      exact Option.Rel.none
    | some hr =>
      cases hdj with
      | some hs =>
        have hstored := fun f => (hr.stored f).trans (hs.stored f).symm
        have hvectors := fun f => (hr.vectors f).trans (hs.vectors f).symm
        exact Option.Rel.some ⟨hr.live.trans hs.live.symm, hstored, hvectors⟩
  · intro t
    cases hps : ix.postingsOf? t with
    | none =>
      have hnone : ∀ id, jx.posting? t id = none := by
        intro id
        rw [← hposting, posting?, hps, Option.bind_none]
      rw [hjx.postingsOf?_eq_none hnone]
      exact Option.Rel.none
    | some ps =>
      cases hqs : jx.postingsOf? t with
      | none =>
        have hnone : ∀ id, ix.posting? t id = none := by
          intro id
          rw [hposting, posting?, hqs, Option.bind_none]
        rw [hix.postingsOf?_eq_none hnone] at hps
        cases hps
      | some qs =>
        have hfind : ∀ id, OrderedMap.find? ps id = OrderedMap.find? qs id := by
          intro id
          have hp := hposting t id
          rwa [posting?, posting?, hps, hqs] at hp
        exact Option.Rel.some hfind

/-- In how many documents each term has postings, deleted ones included. -/
def spread (ix : Index) : Tally := ix.postings.map fun field => field.map fun ps => (ps.size : Int)

theorem size_spread (ix : Index) : ix.spread.size = ix.stats.terms := by
  have hsizes : ix.spread.values.map OrderedMap.size = ix.postings.values.map (·.size) := by
    unfold spread OrderedMap.values OrderedMap.map
    rw [List.map_map, List.map_map, List.map_map]
    exact List.map_congr_left fun e _ => List.length_map _
  unfold Tally.size
  rw [hsizes]
  rfl

theorem mem_terms_spread_iff {t : Term} :
    t ∈ ix.spread.terms.map Prod.fst ↔ (ix.postingsOf? t).isSome = true := by
  have hcount : ix.spread.count? t = (ix.postingsOf? t).map fun ps => (ps.size : Int) := by
    unfold Tally.count? spread postingsOf?
    rw [OrderedMap.find?_map, Option.bind_map, Option.map_bind]
    congr 1
    funext field
    exact field.find?_map _ _
  rw [← Option.isSome_map (f := fun ps : Postings => (ps.size : Int)), ← hcount,
    Option.isSome_iff_exists, List.mem_map]
  constructor
  · rintro ⟨e, he, rfl⟩
    exact ⟨e.2, Tally.mem_terms_iff.1 he⟩
  · rintro ⟨n, hn⟩
    exact ⟨(t, n), Tally.mem_terms_iff.2 hn, rfl⟩

variable {tokens : String → String → Nat}

theorem isLive_of_contains (hd : ix.deletedIds = []) {id : String}
    (hc : ix.docs.contains id = true) : ix.isLive id = true := by
  rw [OrderedMap.contains_eq_isSome, Option.isSome_iff_exists] at hc
  obtain ⟨r, hr⟩ := hc
  have hlive : r.live = true := by
    by_contra hno
    have hmem : id ∈ ix.deletedIds := by
      unfold deletedIds
      rw [OrderedMap.mem_keys_iff, OrderedMap.find?_filter, hr, Option.filter_some]
      simpa using hno
    rw [hd] at hmem
    exact List.not_mem_nil hmem
  unfold isLive
  rw [hr]
  exact hlive

theorem IsIntact.docFreq_pos_iff (h : ix.IsIntact tokens) (hd : ix.deletedIds = []) {t : Term} :
    0 < ix.docFreq t ↔ (ix.postingsOf? t).isSome = true := by
  unfold docFreq
  cases hps : ix.postingsOf? t with
  | none => simp
  | some ps =>
    obtain ⟨id, p, hp⟩ := OrderedMap.size_ne_zero_iff.1 (h.occupied t ps hps)
    have hposting : ix.posting? t id = some p := by rw [posting?, hps, Option.bind_some, hp]
    have hlive := isLive_of_contains hd (h.known t id p hposting)
    have hfind : (ps.filter fun id _ => ix.isLive id).find? id = some p := by
      rw [OrderedMap.find?_filter, hp, Option.filter_some, if_pos hlive]
    have hsize := OrderedMap.size_ne_zero_iff.2 ⟨id, p, hfind⟩
    dsimp only
    simp only [Option.isSome_some, iff_true]
    omega

theorem IsIntact.encard_occurring (h : ix.IsIntact tokens) (hd : ix.deletedIds = []) :
    {t | 0 < ix.docFreq t}.encard = ix.stats.terms := by
  have hset : {t | 0 < ix.docFreq t} = ((ix.spread.terms.map Prod.fst).toFinset : Set Term) := by
    ext t
    rw [Finset.mem_coe, List.mem_toFinset, mem_terms_spread_iff]
    exact h.docFreq_pos_iff hd
  rw [hset, Set.encard_coe_eq_coe_finsetCard, List.toFinset_card_of_nodup ix.spread.nodup_terms,
    List.length_map, Tally.length_terms, size_spread]

end Index
end TermMining
