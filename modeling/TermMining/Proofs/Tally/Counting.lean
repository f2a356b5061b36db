import Mathlib.Algebra.Order.Ring.Int
import TermMining.Proofs.OrderedMap
import TermMining.Proofs.Tally
import TermMining.Proofs.TermVector

/-! Texts are counted by the first tokens of their concatenation, and a vector like the row of terms
it was made of. -/
namespace TermMining.Tally

variable {ω : Type} (c : Criteria ω) (field : String)

theorem openField_of_contains {t : Tally} (h : t.contains field = true) : t.openField field = t :=
  if_pos h

theorem contains_openField (t : Tally) : (t.openField field).contains field = true := by
  rw [OrderedMap.contains_eq_isSome, openField, OrderedMap.find?_ensure, if_pos rfl]
  rfl

theorem contains_count {t : Tally} (h : t.contains field = true) (word : String) (n : Int) :
    (t.count c field word n).contains field = true := by
  unfold count
  split
  · exact h
  · rw [OrderedMap.contains_eq_isSome, OrderedMap.find?_update, if_pos rfl]
    rfl

theorem contains_foldl_count {t : Tally} (h : t.contains field = true) (words : List String) :
    (words.foldl (fun t word => t.count c field word 1) t).contains field = true := by
  induction words generalizing t with
  | nil => exact h
  | cons word words ih => exact ih (contains_count c field h word 1)

theorem keys_count {t : Tally} (h : t.contains field = true) (word : String) (n : Int) :
    (t.count c field word n).keys = t.keys := by
  unfold count
  split
  · rfl
  · exact (OrderedMap.keys_insert t field _).trans (if_pos h)

/-- In a field that is there, counting leaves all fields where they are. -/
theorem keys_foldl_count (l : List (String × Int)) {t : Tally} (h : t.contains field = true) :
    (l.foldl (fun t e => t.count c field e.1 e.2) t).keys = t.keys := by
  induction l generalizing t with
  | nil => rfl
  | cons e l ih => rw [List.foldl_cons, ih (contains_count c field h e.1 e.2), keys_count c field h]

/-- Reading goes on up to the limit or to the end, and counts what it reads. -/
theorem readTerms_eq (limit read : Int) (t : Tally) (terms : List String) :
    readTerms c field limit read t terms =
      (read + (terms.take (limit - read).toNat).length,
        (terms.take (limit - read).toNat).foldl (fun t word => t.count c field word 1) t) := by
  induction terms generalizing read t with
  | nil => simp [readTerms]
  | cons term terms ih =>
    rw [readTerms]
    split
    · next hle =>
      rw [Int.toNat_eq_zero.2 (by omega), List.take_zero]
      simp
    · next hlt =>
      have hleft : (limit - read).toNat = (limit - (read + 1)).toNat + 1 := by omega
      rw [ih, hleft, List.take_succ_cons, List.length_cons, List.foldl_cons, Nat.cast_succ,
        add_assoc, add_comm (1 : Int)]

theorem addTerms_eq (t : Tally) (terms : List String) (limit : Int) :
    t.addTerms c field terms limit =
      (((terms.take limit.toNat).length : Int),
        (terms.take limit.toNat).foldl (fun t word => t.count c field word 1)
          (t.openField field)) := by
  rw [addTerms, readTerms_eq, Int.sub_zero, Int.zero_add]

/-- The allowance that texts share is spent on their concatenation from the front. -/
theorem addEach_eq (a : Analyzer) {t : Tally} (h : t.contains field = true) (allowance : Int)
    (texts : List String) :
    addEach c a field t allowance texts =
      ((texts.flatMap (a.fieldTerms field)).take allowance.toNat).foldl
        (fun t word => t.count c field word 1) t := by
  induction texts generalizing t allowance with
  | nil => simp [addEach]
  | cons text texts ih =>
    rw [addEach]
    split
    · next hle => rw [Int.toNat_eq_zero.2 hle, List.take_zero, List.foldl_nil]
    · next hpos =>
      let read := (a.fieldTerms field text).take allowance.toNat
      have hadd : t.addTerms c field (a.fieldTerms field text) allowance =
          ((read.length : Int), read.foldl (fun t word => t.count c field word 1) t) := by
        rw [addTerms_eq, openField_of_contains field h]
      have hrest : (allowance - read.length).toNat =
          allowance.toNat - (a.fieldTerms field text).length := by
        have hlen : read.length = min allowance.toNat (a.fieldTerms field text).length :=
          List.length_take
        omega
      rw [hadd, ih (contains_foldl_count c field h read), hrest, List.flatMap_cons,
        List.take_append, List.foldl_append]

theorem count?_openField (t : Tally) (term : Term) :
    (t.openField field).count? term = t.count? term := by
  unfold count? openField
  rw [OrderedMap.find?_ensure]
  split
  · next hf =>
    rw [hf]
    cases t.find? field <;> rfl
  · rfl

theorem count?_count (t : Tally) (word : String) (n : Int) (term : Term) :
    (t.count c field word n).count? term =
      if c.isNoise word = false ∧ term = ⟨field, word⟩ then some ((t.count? term).getD 0 + n)
      else t.count? term := by
  unfold count
  by_cases hn : c.isNoise word = true
  · rw [if_pos hn, if_neg fun h => absurd h.1 (by simp [hn])]
  · rw [if_neg hn]
    unfold count?
    rw [OrderedMap.find?_update]
    by_cases hf : term.field = field
    · rw [if_pos hf, Option.bind_some, OrderedMap.find?_update]
      by_cases hw : term.text = word
      · have ht : term = ⟨field, word⟩ := by rw [← hf, ← hw]
        rw [if_pos hw, if_pos ⟨by simpa using hn, ht⟩, hf, hw]
        cases t.find? field <;> rfl
      · rw [if_neg hw, if_neg fun h => hw (congrArg Term.text h.2), hf]
        cases t.find? field <;> rfl
    · rw [if_neg hf, if_neg fun h => hf (congrArg Term.field h.2)]

/-- Words counted with numbers: each word that is no noise has the sum of its numbers. -/
theorem count?_foldl_count (l : List (String × Int)) (t : Tally) (term : Term) :
    (l.foldl (fun t e => t.count c field e.1 e.2) t).count? term =
      if c.isNoise term.text = false ∧ term.field = field ∧ term.text ∈ l.map Prod.fst then
        some ((t.count? term).getD 0 + ((l.filter fun e => e.1 = term.text).map Prod.snd).sum)
      else t.count? term := by
  induction l generalizing t with
  | nil => simp
  | cons e l ih =>
    rw [List.foldl_cons, ih, count?_count]
    by_cases he : c.isNoise e.1 = false ∧ term = ⟨field, e.1⟩
    · obtain ⟨hn, rfl⟩ := he
      by_cases hl : e.1 ∈ l.map Prod.fst
      · simp [hn, hl, Int.add_assoc]
      · simp [hn, hl, OrderedMap.filter_key_eq_nil hl]
    · rw [if_neg he]
      by_cases hc : c.isNoise term.text = false ∧ term.field = field
      · have hne : e.1 ≠ term.text := by
          intro heq
          rw [heq] at he
          exact he ⟨hc.1, by rw [← hc.2]⟩
        have hmem : term.text ∈ (e :: l).map Prod.fst ↔ term.text ∈ l.map Prod.fst := by
          simp [Ne.symm hne]
        rw [List.filter_cons_of_neg (by simpa using hne)]
        simp only [hmem]
      · rw [if_neg fun h => hc ⟨h.1, h.2.1⟩, if_neg fun h => hc ⟨h.1, h.2.1⟩]

theorem sum_map_one (words : List String) (word : String) :
    (((words.map fun w => (w, (1 : Int))).filter fun e => e.1 = word).map Prod.snd).sum =
      words.count word := by
  induction words with
  | nil => rfl
  | cons w words ih =>
    by_cases hw : w = word
    · subst hw
      simp [ih, Int.add_comm]
    · rw [List.map_cons, List.filter_cons_of_neg (by simpa using hw), ih, List.count_cons_of_ne hw]

/-- The count of a term among words of one field: how often it occurs, unless it is noise. -/
theorem count?_foldl_words (words : List String) (t : Tally) (term : Term) :
    (words.foldl (fun t word => t.count c field word 1) t).count? term =
      if c.isNoise term.text = false ∧ term.field = field ∧ term.text ∈ words then
        some ((t.count? term).getD 0 + words.count term.text)
      else t.count? term := by
  have h := count?_foldl_count c field (words.map fun w => (w, 1)) t term
  rw [List.foldl_map, sum_map_one, List.map_map] at h
  simpa using h

theorem sum_map_entries (words : List String) (word : String) :
    (((TermVector.ofTerms field words).entries.filter fun e => e.1 = word).map Prod.snd).sum =
      words.count word := by
  by_cases hw : word ∈ words
  · have hmem : (word, (words.count word : Int)) ∈ (TermVector.ofTerms field words).entries :=
      TermVector.mem_entries_ofTerms.2 ⟨hw, rfl⟩
    rw [OrderedMap.filter_key_eq_singleton (TermVector.nodup_terms_ofTerms field words) hmem]
    exact Int.add_zero _
  · have hnone : word ∉ (TermVector.ofTerms field words).entries.map Prod.fst := fun hmem =>
      hw (TermVector.mem_terms_ofTerms.1 hmem)
    rw [OrderedMap.filter_key_eq_nil hnone, List.count_eq_zero_of_not_mem hw]
    rfl

/-- A vector is counted like the words it was made of. -/
theorem count?_addVector (words : List String) (t : Tally) (term : Term) :
    (t.addVector c field (.ofTerms field words)).count? term =
      (words.foldl (fun t word => t.count c field word 1) t).count? term := by
  have hmem : term.text ∈ (TermVector.ofTerms field words).entries.map Prod.fst ↔
      term.text ∈ words := TermVector.mem_terms_ofTerms
  unfold addVector
  rw [count?_foldl_count, count?_foldl_words, sum_map_entries, count?_openField]
  simp only [hmem]

/-- The tally of a row of words. -/
def ofWords (words : List String) : Tally :=
  words.foldl (fun t word => t.count c field word 1) (openField .empty field)

theorem count?_ofWords (words : List String) (term : Term) :
    (ofWords c field words).count? term =
      if c.isNoise term.text = false ∧ term.field = field ∧ term.text ∈ words then
        some (words.count term.text : Int)
      else none := by
  have hnone : (openField .empty field).count? term = none := count?_openField field .empty term
  unfold ofWords
  rw [count?_foldl_words, hnone, Option.getD_none, Int.zero_add]

theorem count_bounds_ofWords {words : List String} {e : Term × Int}
    (he : e ∈ (ofWords c field words).terms) : 0 < e.2 ∧ e.2 ≤ words.length := by
  have hcount := mem_terms_iff.1 he
  rw [count?_ofWords] at hcount
  split at hcount
  · next h =>
    have hpos : 0 < words.count e.1.text := List.count_pos_iff.2 h.2.2
    have hle := List.count_le_length (l := words) (a := e.1.text)
    have heq : (words.count e.1.text : Int) = e.2 := Option.some.inj hcount
    omega
  · cases hcount

theorem terms_addVector_perm (words : List String) :
    (addVector c .empty field (.ofTerms field words)).terms.Perm
      (ofWords c field words).terms := by
  apply terms_perm
  intro term
  unfold ofWords
  rw [count?_addVector, count?_foldl_words, count?_foldl_words, count?_openField]

theorem terms_ofWords_perm {words words' : List String} (hp : words.Perm words') :
    (ofWords c field words).terms.Perm (ofWords c field words').terms := by
  apply terms_perm
  intro term
  rw [count?_ofWords, count?_ofWords, hp.count_eq]
  simp only [hp.mem_iff]

theorem ofTexts_eq_ofWords (a : Analyzer) (texts : List String) :
    ofTexts c (some a) field texts =
      .ok (ofWords c field ((texts.flatMap (a.fieldTerms field)).take c.maxTokens.toNat)) :=
  congrArg Except.ok (addEach_eq c field a (contains_openField field .empty) c.maxTokens texts)

/-- Texts whose tokens the allowance covers are counted whole. -/
theorem ofTexts_eq (a : Analyzer) {texts : List String}
    (h : (texts.flatMap (a.fieldTerms field)).length ≤ c.maxTokens) :
    ofTexts c (some a) field texts =
      .ok (ofWords c field (texts.flatMap (a.fieldTerms field))) := by
  rw [ofTexts_eq_ofWords, List.take_of_length_le (by omega)]

end TermMining.Tally
