import TermMining.Index
import TermMining.Proofs.OrderedMap

/-! What taking in the terms of a document and taking it out do to the posting of each term in each
document. -/
namespace TermMining

def placesOf (terms : List String) (t : String) : List Int :=
  ((terms.mapIdx fun i u => (u, (i : Int))).filter fun e => e.1 = t).map Prod.snd

theorem map_fst_mapIdx (terms : List String) :
    (terms.mapIdx fun i u => (u, (i : Int))).map Prod.fst = terms := by
  rw [List.mapIdx_eq_zipIdx_map, List.map_map]
  exact List.zipIdx_map_fst 0 terms

theorem length_placesOf (terms : List String) (t : String) :
    (placesOf terms t).length = terms.count t := by
  have hcount : terms.count t =
      ((terms.mapIdx fun i u => (u, (i : Int))).map Prod.fst).count t := by rw [map_fst_mapIdx]
  unfold placesOf
  rw [hcount, List.length_map, ← List.countP_eq_length_filter, List.count, List.countP_map]
  congr 1

theorem map_snd_mapIdx (terms : List String) :
    (terms.mapIdx fun i u => (u, (i : Int))).map Prod.snd =
      (List.range terms.length).map fun i : Nat => (i : Int) := by
  rw [List.mapIdx_eq_zipIdx_map, List.map_map, List.range_eq_range', ← List.zipIdx_map_snd,
    List.map_map]
  rfl

theorem ascending_placesOf (terms : List String) (t : String) :
    (placesOf terms t).Pairwise (· < ·) := by
  have hall : ((terms.mapIdx fun i u => (u, (i : Int))).map Prod.snd).Pairwise (· < ·) := by
    rw [map_snd_mapIdx, List.pairwise_map]
    exact List.pairwise_lt_range.imp Int.ofNat_lt.2
  exact hall.sublist (List.filter_sublist.map Prod.snd)

theorem mem_placesOf {terms : List String} {t : String} {i : Int} :
    i ∈ placesOf terms t ↔ ∃ j : Nat, terms[j]? = some t ∧ (j : Int) = i := by
  unfold placesOf
  rw [List.mem_map]
  constructor
  · rintro ⟨e, he, rfl⟩
    obtain ⟨hmem, ht⟩ := List.mem_filter.1 he
    obtain ⟨j, hj, rfl⟩ := List.mem_mapIdx.1 hmem
    exact ⟨j, List.getElem?_eq_some_iff.2 ⟨hj, of_decide_eq_true ht⟩, rfl⟩
  · rintro ⟨j, hj, rfl⟩
    obtain ⟨hlt, rfl⟩ := List.getElem?_eq_some_iff.1 hj
    have hmem : (terms[j], (j : Int)) ∈ terms.mapIdx fun i u => (u, (i : Int)) :=
      List.mem_mapIdx.2 ⟨j, hlt, rfl⟩
    exact ⟨(terms[j], j), List.mem_filter.2 ⟨hmem, decide_eq_true rfl⟩, rfl⟩

/-- The posting of a term in a document with these terms. -/
def Posting.of? (terms : List String) (t : String) : Option Posting :=
  if t ∈ terms then some ⟨terms.count t, placesOf terms t⟩ else none

theorem Posting.of?_eq_some_iff {terms : List String} {t : String} {p : Posting} :
    Posting.of? terms t = some p ↔ t ∈ terms ∧ p = ⟨terms.count t, placesOf terms t⟩ := by
  unfold Posting.of?
  split
  · next h => simp [h, eq_comm]
  · next h => simp [h]

namespace Index

/-- Grouping pairs by their first components keeps the second ones in order. -/
theorem find?_foldl_append (l : List (String × Int)) (m : OrderedMap String (List Int))
    (k : String) :
    (l.foldl (fun m e => m.update e.1 fun places => places.getD [] ++ [e.2]) m).find? k =
      if k ∈ l.map Prod.fst then
        some ((m.find? k).getD [] ++ (l.filter fun e => e.1 = k).map Prod.snd)
      else m.find? k := by
  induction l generalizing m with
  | nil => rfl
  | cons e l ih =>
    rw [List.foldl_cons, ih, OrderedMap.find?_update]
    by_cases he : k = e.1
    · subst he
      by_cases hl : e.1 ∈ l.map Prod.fst
      · simp [hl]
      · simp [hl, OrderedMap.filter_key_eq_nil hl]
    · have hmem : k ∈ (e :: l).map Prod.fst ↔ k ∈ l.map Prod.fst := by simp [he]
      have hfilter : (e :: l).filter (fun d => d.1 = k) = l.filter fun d => d.1 = k :=
        List.filter_cons_of_neg (by simpa using Ne.symm he)
      rw [if_neg he, hfilter]
      simp only [hmem]

theorem find?_occurrences (terms : List String) (t : String) :
    (occurrences terms).find? t = if t ∈ terms then some (placesOf terms t) else none := by
  unfold occurrences
  rw [find?_foldl_append, map_fst_mapIdx]
  rfl

def inField? (field : OrderedMap String Postings) (t doc : String) : Option Posting :=
  (field.find? t).bind fun ps => ps.find? doc

theorem find?_add {ps : Postings} {doc : String} (h : ps.find? doc = none) (p : Posting)
    (id : String) : (ps.add doc p).find? id = if id = doc then some p else ps.find? id := by
  unfold Postings.add
  rw [OrderedMap.find?_update, h]

theorem inField?_foldl_update (doc : String) (l : List (String × List Int))
    (field : OrderedMap String Postings) (hl : (l.map Prod.fst).Nodup)
    (hnew : ∀ e ∈ l, inField? field e.1 doc = none) (t id : String) :
    inField? (l.foldl (fun field e => field.update e.1 fun ps =>
        (ps.getD .empty).add doc ⟨e.2.length, e.2⟩) field) t id =
      if id = doc then
        ((l.find? fun e => e.1 = t).map fun e => ⟨e.2.length, e.2⟩).or (inField? field t doc)
      else inField? field t id := by
  induction l generalizing field with
  | nil =>
    split
    · next h => rw [h]; rfl
    · rfl
  | cons e l ih =>
    obtain ⟨he, hl⟩ := List.nodup_cons.1 hl
    have hadd : ∀ id, (((field.find? e.1).getD .empty).add doc ⟨e.2.length, e.2⟩).find? id =
        if id = doc then some ⟨e.2.length, e.2⟩ else inField? field e.1 id := by
      have hnone := hnew e List.mem_cons_self
      unfold inField? at hnone ⊢
      cases hf : field.find? e.1 with
      | none => exact find?_add rfl _
      | some ps =>
        rw [hf] at hnone
        exact find?_add hnone _
    have hstep : ∀ u id, inField? (field.update e.1 fun ps =>
        (ps.getD .empty).add doc ⟨e.2.length, e.2⟩) u id =
          if u = e.1 ∧ id = doc then some ⟨e.2.length, e.2⟩ else inField? field u id := by
      intro u id
      unfold inField?
      rw [OrderedMap.find?_update]
      by_cases hu : u = e.1
      · subst hu
        rw [if_pos rfl]
        exact (hadd id).trans (by simp [inField?])
      · rw [if_neg hu, if_neg fun h => hu h.1]
    rw [List.foldl_cons, ih _ hl]
    · rw [hstep, hstep]
      by_cases hid : id = doc
      · by_cases ht : e.1 = t
        · have hrest : l.find? (fun d => d.1 = t) = none := by
            rw [List.find?_eq_none]
            intro d hd heq
            exact he (List.mem_map.2 ⟨d, hd, by simpa [ht] using heq⟩)
          simp [hid, ht, hrest]
        · simp [hid, ht, Ne.symm ht]
      · simp [hid]
    · intro d hd
      rw [hstep, if_neg]
      · exact hnew d (List.mem_cons_of_mem _ hd)
      · rintro ⟨hde, -⟩
        exact he (List.mem_map.2 ⟨d, hd, hde⟩)

/-- A document that is new to a field has just the postings of its terms there. -/
theorem inField?_addOccurrences {field : OrderedMap String Postings} {doc : String}
    (hnew : ∀ t, inField? field t doc = none) (terms : List String) (t id : String) :
    inField? (addOccurrences field doc (occurrences terms)) t id =
      if id = doc then Posting.of? terms t else inField? field t id := by
  unfold addOccurrences
  rw [inField?_foldl_update doc _ field (occurrences terms).keys_nodup fun e _ => hnew e.1]
  split
  · have hfind : ((occurrences terms).entries.find? fun e => e.1 = t).map
          (fun e : String × List Int => (⟨e.2.length, e.2⟩ : Posting)) =
        ((occurrences terms).find? t).map fun l => ⟨l.length, l⟩ := by
      unfold OrderedMap.find?
      rw [Option.map_map]
      rfl
    rw [hfind, hnew, Option.or_none, find?_occurrences, Posting.of?]
    split
    · rw [Option.map_some, length_placesOf]
    · rfl
  · rfl

def posting? (ix : Index) (t : Term) (id : String) : Option Posting :=
  (ix.postingsOf? t).bind fun ps => ps.find? id

theorem posting?_eq (ix : Index) (t : Term) (id : String) :
    ix.posting? t id = (ix.postings.find? t.field).bind fun field => inField? field t.text id := by
  unfold posting? postingsOf? inField?
  rw [Option.bind_assoc]

theorem posting?_remove (ix : Index) (doc : String) (t : Term) (id : String) :
    (ix.remove doc).posting? t id = if id = doc then none else ix.posting? t id := by
  rw [posting?_eq, posting?_eq, remove, OrderedMap.find?_map, Option.bind_map]
  cases ix.postings.find? t.field with
  | none => exact (ite_self none).symm
  | some field =>
    unfold inField?
    rw [Option.bind_some, Option.bind_some, Function.comp_apply, OrderedMap.find?_filter,
      OrderedMap.find?_map]
    cases field.find? t.text with
    | none => exact (ite_self none).symm
    | some ps =>
      rw [Option.map_some, Option.bind_some, ← OrderedMap.find?_erase]
      by_cases hsize : (ps.erase doc).size = 0
      · have hnil : (ps.erase doc).entries = [] := List.length_eq_zero_iff.1 hsize
        simp [hsize, OrderedMap.find?, hnil]
      · rw [Option.filter_some, if_pos (by simpa using hsize), Option.bind_some]

end Index
end TermMining
