import TermMining.Proofs.Tally.Rows

/-! Counts that go through a term vector, back into a map and into a tally. -/
namespace TermMining

namespace Tally

variable {ω : Type} (c : Criteria ω) (field : String)

/-- `u` is `t` with counts added under one field. A term that is new there starts from nothing, also
with a count of zero; noise and terms without a count stay as they are. -/
structure Adds (counts : OrderedMap String Int) (t u : Tally) : Prop where
  /-- No field goes or moves, and one that is new comes last. -/
  keys_eq : u.keys = if t.contains field then t.keys else t.keys ++ [field]
  find?_of_ne : ∀ f, f ≠ field → u.find? f = t.find? f
  count?_of_counted : ∀ word n, c.isNoise word = false → counts.find? word = some n →
    u.count? ⟨field, word⟩ = some ((t.count? ⟨field, word⟩).getD 0 + n)
  count?_of_not_counted : ∀ word, c.isNoise word = true ∨ counts.find? word = none →
    u.count? ⟨field, word⟩ = t.count? ⟨field, word⟩

theorem keys_addRow (t : Tally) (row : List (String × Int)) :
    (t.addRow c field row).keys = if t.contains field then t.keys else t.keys ++ [field] := by
  have hopen : (t.openField field).keys =
      if t.contains field then t.keys else t.keys ++ [field] := by
    unfold openField OrderedMap.ensure
    split
    · rfl
    · next hnew => rw [OrderedMap.keys_insert, if_neg hnew]
  rw [← hopen]
  exact keys_foldl_count c field row (contains_openField field t)

theorem find?_count_of_ne {f : String} (h : f ≠ field) (t : Tally) (word : String) (n : Int) :
    (t.count c field word n).find? f = t.find? f := by
  unfold count
  split
  · rfl
  · exact OrderedMap.find?_insert_of_ne t _ h

theorem find?_addRow_of_ne {f : String} (h : f ≠ field) (t : Tally) (row : List (String × Int)) :
    (t.addRow c field row).find? f = t.find? f := by
  have hfold : ∀ t : Tally,
      (row.foldl (fun t e => t.count c field e.1 e.2) t).find? f = t.find? f := by
    induction row with
    | nil => exact fun _ => rfl
    | cons e row ih =>
      intro t
      rw [List.foldl_cons, ih, find?_count_of_ne c field h]
  unfold addRow
  rw [hfold, openField, OrderedMap.find?_ensure, if_neg h]

/-- A word that stands in a row once has the number beside it. -/
theorem total_of_mem {row : List (String × Int)} (h : (row.map Prod.fst).Nodup) {word : String}
    {n : Int} (hmem : (word, n) ∈ row) : total row word = n := by
  unfold total
  rw [OrderedMap.filter_key_eq_singleton h hmem]
  exact Int.add_zero n

end Tally

namespace TermVector

variable {ω : Type} (c : Criteria ω) (field : String)

theorem Lists.adds_addVector {v : TermVector} {counts : OrderedMap String Int} (h : v.Lists counts)
    (t : Tally) : Tally.Adds c field counts t (t.addVector c field v) where
  keys_eq := Tally.keys_addRow c field t v.entries
  find?_of_ne f hf := Tally.find?_addRow_of_ne c field hf t v.entries
  count?_of_counted word n hnoise hfind := by
    have hmem : (word, n) ∈ v.entries := h.mem_entries_iff.2 hfind
    have hcount := Tally.count?_addRow c t field v.entries ⟨field, word⟩
    rw [if_pos ⟨hnoise, rfl, List.mem_map.2 ⟨_, hmem, rfl⟩⟩, Tally.total_of_mem h.nodup_terms hmem]
      at hcount
    exact hcount
  count?_of_not_counted word hno := by
    have hcount := Tally.count?_addRow c t field v.entries ⟨field, word⟩
    rw [if_neg] at hcount
    · exact hcount
    · rintro ⟨hnoise, -, hmem⟩
      have hsome : (counts.find? word).isSome = true := h.mem_terms_iff.1 hmem
      rcases hno with hyes | hnone
      · rw [hyes] at hnoise
        cases hnoise
      · rw [hnone] at hsome
        cases hsome

example :
    let c : Criteria Unit := { boostFactor := (), stopWords := .ofList ["of"] }
    let t : Tally := .ofLists [("body", [("pie", 2), ("of", 1)])]
    let u := t.addVector c "body" ⟨"body", [("apple", 0), ("of", 4), ("pie", 1)]⟩
    u.terms = [(⟨"body", "pie"⟩, 3), (⟨"body", "of"⟩, 1), (⟨"body", "apple"⟩, 0)] := by
  decide

/-- A vector keeps the counts it is made of. It lists their terms in strictly ascending order,
beside each its count, and reads back as the same map. Counted into any tally, it adds to every term
of its field that is no noise what was counted of it, and changes nothing else. -/
theorem keepsCounts_ofCounts (counts : OrderedMap String Int) (t : Tally) :
    let v := ofCounts field counts
    v.field = field ∧ v.Lists counts ∧ (∀ word, v.toMap.find? word = counts.find? word) ∧
      Tally.Adds c field counts t (t.addVector c field v) := by
  intro v
  have hlists : v.Lists counts := lists_ofCounts field counts
  exact ⟨rfl, hlists, hlists.find?_toMap, hlists.adds_addVector c field t⟩

end TermVector
end TermMining
