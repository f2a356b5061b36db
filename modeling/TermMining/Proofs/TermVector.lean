import TermMining.Proofs.OrderedMap
import TermMining.StringSet
import TermMining.TermVector

/-! Term vectors of counts and of rows of terms: each term once, in ascending order, beside it its
count. -/
namespace TermMining

theorem nodup_of_ascending {l : List String} (h : l.Pairwise (· < ·)) : l.Nodup := by
  apply h.imp
  rintro a _ hlt rfl
  exact String.lt_irrefl _ hlt

theorem StringSet.nodup_members (set : StringSet) : set.members.Nodup :=
  nodup_of_ascending set.ascending

namespace TermVector

theorem length_terms (v : TermVector) : v.terms.length = v.frequencies.length := by
  rw [terms, frequencies, List.length_map, List.length_map]

theorem ofLists_terms_frequencies (v : TermVector) :
    ofLists v.field v.terms v.frequencies = .ok v := by
  have hzip : v.terms.zip v.frequencies = v.entries := (List.zip_of_prod rfl rfl).symm
  rw [ofLists, if_pos v.length_terms, hzip]

/-- A vector lists counts: their terms in ascending order, and beside each term the count that is
looked up under it. It is the vector that its two lists make. -/
structure Lists (v : TermVector) (counts : OrderedMap String Int) : Prop where
  ascending : v.terms.Pairwise (· < ·)
  terms_eq : v.terms = counts.keys.mergeSort fun a b => a ≤ b
  length_eq : v.terms.length = v.frequencies.length
  frequencies_eq : v.frequencies.map some = v.terms.map counts.find?
  ofLists_eq : ofLists v.field v.terms v.frequencies = .ok v

section Counts

variable (field : String) (counts : OrderedMap String Int)

theorem perm_ofCounts : (ofCounts field counts).entries.Perm counts.entries :=
  List.mergeSort_perm _ _

theorem ascending_ofCounts :
    (ofCounts field counts).entries.Pairwise fun a b => a.1 < b.1 := by
  have htrans : ∀ a b c : String × Int, decide (a.1 ≤ b.1) = true → decide (b.1 ≤ c.1) = true →
      decide (a.1 ≤ c.1) = true := by
    intro a b c hab hbc
    rw [decide_eq_true_eq] at hab hbc ⊢
    exact String.le_trans hab hbc
  have htotal : ∀ a b : String × Int, (decide (a.1 ≤ b.1) || decide (b.1 ≤ a.1)) = true := by
    intro a b
    rw [Bool.or_eq_true, decide_eq_true_eq, decide_eq_true_eq]
    exact String.le_total a.1 b.1
  have hsorted : (ofCounts field counts).entries.Pairwise fun a b => decide (a.1 ≤ b.1) = true :=
    List.pairwise_mergeSort htrans htotal counts.entries
  have hdistinct : (ofCounts field counts).entries.Pairwise fun a b => a.1 ≠ b.1 :=
    List.pairwise_map.1 (((perm_ofCounts field counts).map Prod.fst).nodup_iff.2 counts.keys_nodup)
  apply (hsorted.and hdistinct).imp
  rintro a b ⟨hle, hne⟩
  exact Decidable.byContradiction fun hlt =>
    hne (String.le_antisymm (of_decide_eq_true hle) (String.not_lt.1 hlt))

/-- Sorting the terms and then looking up their counts comes to the same as sorting the pairs. -/
theorem terms_ofCounts : (ofCounts field counts).terms = counts.keys.mergeSort fun a b => a ≤ b :=
  List.map_mergeSort fun _ _ _ _ => rfl

theorem frequencies_ofCounts :
    (ofCounts field counts).frequencies.map some =
      (ofCounts field counts).terms.map counts.find? := by
  unfold frequencies terms
  rw [List.map_map, List.map_map]
  apply List.map_congr_left
  intro e he
  exact (counts.find?_eq_some_iff.2 ((perm_ofCounts field counts).mem_iff.1 he)).symm

theorem lists_ofCounts : (ofCounts field counts).Lists counts where
  ascending := List.pairwise_map.2 (ascending_ofCounts field counts)
  terms_eq := terms_ofCounts field counts
  length_eq := length_terms _
  frequencies_eq := frequencies_ofCounts field counts
  ofLists_eq := ofLists_terms_frequencies _

end Counts

namespace Lists

variable {v : TermVector} {counts : OrderedMap String Int} (h : v.Lists counts)
include h

theorem nodup_terms : v.terms.Nodup := nodup_of_ascending h.ascending

theorem mem_terms_iff {t : String} : t ∈ v.terms ↔ (counts.find? t).isSome := by
  rw [h.terms_eq, List.mem_mergeSort, OrderedMap.mem_keys_iff]

theorem mem_entries_iff {t : String} {n : Int} :
    (t, n) ∈ v.entries ↔ counts.find? t = some n := by
  have hpairs : ∀ e ∈ v.entries, counts.find? e.1 = some e.2 := by
    have heq := h.frequencies_eq
    unfold frequencies terms at heq
    rw [List.map_map, List.map_map] at heq
    exact fun e he => (List.map_inj_left.1 heq e he).symm
  constructor
  · exact hpairs (t, n)
  · intro hfind
    obtain ⟨e, he, rfl⟩ := List.mem_map.1 (h.mem_terms_iff.2 (by rw [hfind]; rfl))
    have hn : e.2 = n := Option.some.inj ((hpairs e he).symm.trans hfind)
    exact hn ▸ he

theorem find?_toMap (t : String) : v.toMap.find? t = counts.find? t := by
  have hentries : v.toMap.entries = v.entries := OrderedMap.entries_ofList h.nodup_terms
  ext n
  rw [OrderedMap.find?_eq_some_iff, hentries, h.mem_entries_iff]

end Lists

/-- The terms of a row in ascending order with their counts. -/
def ofTerms (field : String) (terms : List String) : TermVector :=
  ⟨field, (StringSet.ofList terms).members.map fun t => (t, (terms.count t : Int))⟩

theorem mem_entries_ofTerms {field : String} {terms : List String} {e : String × Int} :
    e ∈ (ofTerms field terms).entries ↔ e.1 ∈ terms ∧ e.2 = terms.count e.1 := by
  have hset : ∀ t, t ∈ (StringSet.ofList terms).members ↔ t ∈ terms := fun t =>
    StringSet.mem_ofList
  unfold ofTerms
  rw [List.mem_map]
  constructor
  · rintro ⟨t, ht, rfl⟩
    exact ⟨(hset t).1 ht, rfl⟩
  · rintro ⟨hmem, hcount⟩
    exact ⟨e.1, (hset e.1).2 hmem, by rw [← hcount]⟩

theorem mem_terms_ofTerms {field : String} {terms : List String} {t : String} :
    t ∈ (ofTerms field terms).terms ↔ t ∈ terms := by
  unfold TermVector.terms
  rw [List.mem_map]
  constructor
  · rintro ⟨e, he, rfl⟩
    exact (mem_entries_ofTerms.1 he).1
  · intro h
    exact ⟨(t, terms.count t), mem_entries_ofTerms.2 ⟨h, rfl⟩, rfl⟩

theorem ascending_ofTerms (field : String) (terms : List String) :
    (ofTerms field terms).entries.Pairwise fun a b => a.1 < b.1 :=
  List.pairwise_map.2 (StringSet.ofList terms).ascending

theorem nodup_terms_ofTerms (field : String) (terms : List String) :
    (ofTerms field terms).terms.Nodup :=
  nodup_of_ascending (List.pairwise_map.2 (ascending_ofTerms field terms))

theorem nodup_entries_ofTerms (field : String) (terms : List String) :
    (ofTerms field terms).entries.Nodup :=
  (List.pairwise_map.1 (nodup_terms_ofTerms field terms)).imp fun hne heq =>
    hne (congrArg Prod.fst heq)

/-- However a count came about, its vector is that of the terms counted. -/
theorem ofCounts_eq_ofTerms (field : String) {counts : OrderedMap String Int} {terms : List String}
    (h : ∀ t, counts.find? t = if t ∈ terms then some (terms.count t : Int) else none) :
    ofCounts field counts = ofTerms field terms := by
  have hmem : ∀ e, e ∈ counts.entries ↔ e ∈ (ofTerms field terms).entries := by
    intro e
    rw [mem_entries_ofTerms, ← counts.find?_eq_some_iff, h]
    by_cases ht : e.1 ∈ terms
    · simp [ht, eq_comm]
    · simp [ht]
  have hp : (ofCounts field counts).entries.Perm (ofTerms field terms).entries :=
    (perm_ofCounts field counts).trans
      ((List.perm_ext_iff_of_nodup counts.entries_nodup (nodup_entries_ofTerms field terms)).2 hmem)
  have heq := hp.eq_of_pairwise (fun _ _ _ _ hab hba => absurd hba (String.lt_asymm hab))
    (ascending_ofCounts field counts) (ascending_ofTerms field terms)
  exact congrArg (TermVector.mk field) heq

end TermVector
end TermMining
