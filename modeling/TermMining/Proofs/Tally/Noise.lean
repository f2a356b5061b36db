import TermMining.Proofs.Tally.Rows

/-! A noise word is read like any other and then not counted. -/
namespace TermMining

def Criteria.allWords {ω : Type} (c : Criteria ω) : Criteria ω :=
  { c with minWordLen := 0, maxWordLen := 0, stopWords := ∅ }

namespace Tally

variable {ω : Type} (c : Criteria ω)

theorem isNoise_allWords (word : String) : c.allWords.isNoise word = false := rfl

/-- The tally without the words that are noise; no field is left out. -/
def withoutNoise (t : Tally) : Tally :=
  t.map fun counts => counts.filter fun word _ => !c.isNoise word

theorem keys_withoutNoise (t : Tally) : (t.withoutNoise c).keys = t.keys := by
  change (t.entries.map _).map _ = _
  rw [List.map_map]
  rfl

theorem count?_withoutNoise (t : Tally) (term : Term) :
    (t.withoutNoise c).count? term = if c.isNoise term.text then none else t.count? term := by
  unfold count? withoutNoise
  rw [OrderedMap.find?_map]
  cases t.find? term.field with
  | none => cases c.isNoise term.text <;> rfl
  | some counts =>
    rw [Option.map_some, Option.bind_some, Option.bind_some,
      counts.find?_filter_key (fun word => !c.isNoise word)]
    cases c.isNoise term.text <;> rfl

theorem withoutNoise_openField (t : Tally) (field : String) :
    (t.openField field).withoutNoise c = (t.withoutNoise c).openField field :=
  t.map_ensure _ field .empty

/-- In a field that is there, counting a word in and leaving the noise out may change places. -/
theorem withoutNoise_count {t : Tally} {field : String} (h : t.contains field = true)
    (word : String) (n : Int) :
    (t.count c.allWords field word n).withoutNoise c = (t.withoutNoise c).count c field word n := by
  obtain ⟨counts, hfind⟩ := (t.contains_iff_find? field).1 h
  have hclean : (t.withoutNoise c).find? field =
      some (counts.filter fun word _ => !c.isNoise word) := by
    rw [withoutNoise, OrderedMap.find?_map, hfind, Option.map_some]
  unfold count
  rw [if_neg (by simp [isNoise_allWords])]
  by_cases hn : c.isNoise word = true
  · rw [if_pos hn, OrderedMap.update, withoutNoise, OrderedMap.map_insert, hfind, Option.getD_some,
      OrderedMap.update, OrderedMap.filter_key_insert, if_neg (by simp [hn])]
    exact OrderedMap.insert_of_find? hclean
  · rw [if_neg hn]
    apply OrderedMap.map_update
    rw [hfind]
    exact counts.filter_key_update (by simp [hn]) _

theorem withoutNoise_addRow (t : Tally) (field : String) (row : List (String × Int)) :
    (t.addRow c.allWords field row).withoutNoise c = (t.withoutNoise c).addRow c field row := by
  have hfold : ∀ t : Tally, t.contains field = true →
      (row.foldl (fun t e => t.count c.allWords field e.1 e.2) t).withoutNoise c =
        row.foldl (fun t e => t.count c field e.1 e.2) (t.withoutNoise c) := by
    induction row with
    | nil => exact fun _ _ => rfl
    | cons e row ih =>
      intro t h
      rw [List.foldl_cons, List.foldl_cons, ih _ (contains_count c.allWords field h e.1 e.2),
        withoutNoise_count c h]
  unfold addRow
  rw [hfold _ (contains_openField field t), withoutNoise_openField]

variable (analyzer : Option Analyzer) (corpus : Corpus) (id : String)

/-- What is read of a field does not depend on what counts as noise. -/
theorem row_allWords (field : String) :
    row c.allWords analyzer corpus id field = row c analyzer corpus id field := rfl

theorem withoutNoise_foldlM_addField (fields : List String) (t : Tally) :
    (fields.foldlM (addField c.allWords analyzer corpus id) t).map (withoutNoise c) =
      fields.foldlM (addField c analyzer corpus id) (t.withoutNoise c) := by
  induction fields generalizing t with
  | nil => rfl
  | cons field fields ih =>
    rw [List.foldlM_cons, List.foldlM_cons, addField_eq, addField_eq, row_allWords]
    cases row c analyzer corpus id field with
    | error x => rfl
    | ok l =>
      have hrest := ih (t.addRow c.allWords field l)
      rw [withoutNoise_addRow] at hrest
      exact hrest

/-- The tally of a document or of texts is the one in which every word counts, without the noise
words. Leaving these out keeps every field and the count of every other term. -/
theorem tallies_withoutNoise (fields : List String) (field : String) (texts : List String) :
    ofDocument c analyzer corpus id fields =
      (ofDocument c.allWords analyzer corpus id fields).map (withoutNoise c) ∧
    ofTexts c analyzer field texts =
      (ofTexts c.allWords analyzer field texts).map (withoutNoise c) ∧
    ∀ t : Tally, (t.withoutNoise c).keys = t.keys ∧
      ∀ term, (t.withoutNoise c).count? term =
        if c.isNoise term.text then none else t.count? term := by
  refine ⟨?_, ?_, fun t => ⟨keys_withoutNoise c t, count?_withoutNoise c t⟩⟩
  · exact (withoutNoise_foldlM_addField c analyzer corpus id fields .empty).symm
  · have hrow : textRow c.allWords analyzer field texts = textRow c analyzer field texts := rfl
    unfold ofTexts
    rw [addTexts_eq, addTexts_eq, hrow]
    cases textRow c analyzer field texts with
    | error x => rfl
    | ok l => exact congrArg Except.ok (withoutNoise_addRow c .empty field l).symm

end Tally
end TermMining
