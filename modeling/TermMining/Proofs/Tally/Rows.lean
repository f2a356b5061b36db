import TermMining.Proofs.Tally.Counting

/-! The tally of a document as the sum of rows of words with numbers, one for each time that a field
is named. -/
namespace TermMining

/-- A document that can be read in every field. -/
structure Corpus.IsLive (corpus : Corpus) (id : String) : Prop where
  document : ∃ d, corpus.document id = .ok d
  vector : ∀ field, ∃ v, corpus.vector id field = .ok v

namespace Tally

variable {ω : Type} (c : Criteria ω)

def total (row : List (String × Int)) (word : String) : Int :=
  ((row.filter fun e => e.1 = word).map Prod.snd).sum

def ones (words : List String) : List (String × Int) := words.map fun word => (word, 1)

theorem map_fst_ones (words : List String) : (ones words).map Prod.fst = words := by
  unfold ones
  rw [List.map_map]
  exact List.map_id words

theorem total_ones (words : List String) (word : String) :
    total (ones words) word = words.count word := sum_map_one words word

theorem total_ofTerms (field : String) (words : List String) (word : String) :
    total (TermVector.ofTerms field words).entries word = words.count word :=
  sum_map_entries field words word

/-- Every word of the row is counted at least once. -/
def IsPositive (row : List (String × Int)) : Prop := ∀ word ∈ row.map Prod.fst, 0 < total row word

theorem isPositive_ones (words : List String) : IsPositive (ones words) := by
  intro word hw
  rw [map_fst_ones] at hw
  rw [total_ones]
  exact Int.natCast_pos.2 (List.count_pos_iff.2 hw)

theorem isPositive_ofTerms (field : String) (words : List String) :
    IsPositive (TermVector.ofTerms field words).entries := by
  intro word hw
  rw [total_ofTerms]
  exact Int.natCast_pos.2 (List.count_pos_iff.2 (TermVector.mem_terms_ofTerms.1 hw))

/-- The words that texts are counted by: their first tokens, as many as are read. -/
def textRow (analyzer : Option Analyzer) (field : String) (texts : List String) :
    Except Fault (List (String × Int)) :=
  match analyzer with
  | none => .error (.analyzerRequired "")
  | some a => .ok (ones ((texts.flatMap (a.fieldTerms field)).take c.maxTokens.toNat))

/-- The words that a field of a document is counted by, each with its number. -/
def row (analyzer : Option Analyzer) (corpus : Corpus) (id field : String) :
    Except Fault (List (String × Int)) := do
  match ← corpus.vector id field with
  | some v => pure v.entries
  | none =>
    let d ← corpus.document id
    textRow c analyzer field (d.values field)

def addRow (t : Tally) (field : String) (row : List (String × Int)) : Tally :=
  row.foldl (fun t e => t.count c field e.1 e.2) (t.openField field)

variable {analyzer : Option Analyzer} {corpus : Corpus} {id : String}

theorem row_of_vector {field : String} {v : TermVector}
    (hv : corpus.vector id field = .ok (some v)) :
    row c analyzer corpus id field = .ok v.entries := by
  unfold row
  rw [hv]
  rfl

theorem row_of_no_vector {field : String} {d : StoredDocument}
    (hv : corpus.vector id field = .ok none) (hd : corpus.document id = .ok d) :
    row c analyzer corpus id field = textRow c analyzer field (d.values field) := by
  unfold row
  rw [hv, hd]
  rfl

theorem exists_row_of_isLive (h : corpus.IsLive id) (a : Analyzer) (field : String) :
    ∃ l, row c (some a) corpus id field = .ok l := by
  obtain ⟨d, hd⟩ := h.document
  obtain ⟨v, hv⟩ := h.vector field
  cases v with
  | none => exact ⟨_, row_of_no_vector c hv hd⟩
  | some v => exact ⟨_, row_of_vector c hv⟩

theorem addTexts_eq (t : Tally) (field : String) (texts : List String) :
    addTexts c analyzer t field texts =
      (textRow c analyzer field texts).map (t.addRow c field) := by
  cases analyzer with
  | none => rfl
  | some a =>
    unfold addTexts textRow addRow ones
    simp only [Except.map, List.foldl_map]
    rw [addEach_eq c field a (contains_openField field t)]

/-- A field is counted by its row, wherever that comes from. -/
theorem addField_eq (t : Tally) (field : String) :
    addField c analyzer corpus id t field =
      (row c analyzer corpus id field).map (t.addRow c field) := by
  unfold addField row
  cases corpus.vector id field with
  | error f => rfl
  | ok o =>
    cases o with
    | some v => rfl
    | none =>
      cases corpus.document id with
      | error f => rfl
      | ok d => exact addTexts_eq c t field (d.values field)

theorem count?_addRow (t : Tally) (field : String) (row : List (String × Int)) (term : Term) :
    (t.addRow c field row).count? term =
      if c.isNoise term.text = false ∧ term.field = field ∧ term.text ∈ row.map Prod.fst then
        some ((t.count? term).getD 0 + total row term.text)
      else t.count? term := by
  unfold addRow
  rw [count?_foldl_count, count?_openField]
  rfl

/-- The rows of all fields counted one after the other, a repeated field as often as it is named. -/
theorem count?_foldl_addRow (rows : String → List (String × Int)) (fields : List String) (t : Tally)
    (term : Term) :
    (fields.foldl (fun t f => t.addRow c f (rows f)) t).count? term =
      if c.isNoise term.text = false ∧ term.field ∈ fields ∧
          term.text ∈ (rows term.field).map Prod.fst then
        some ((t.count? term).getD 0 +
          fields.count term.field * total (rows term.field) term.text)
      else t.count? term := by
  induction fields generalizing t with
  | nil => simp
  | cons f fields ih =>
    rw [List.foldl_cons, ih]
    by_cases hw : c.isNoise term.text = false ∧ term.text ∈ (rows term.field).map Prod.fst
    · obtain ⟨hn, hw⟩ := hw
      by_cases hf : term.field = f
      · -- the first row of a field brings its words in, the later ones only add to them
        have hstep : (t.addRow c f (rows f)).count? term =
            some ((t.count? term).getD 0 + total (rows term.field) term.text) := by
          rw [count?_addRow, ← hf, if_pos ⟨hn, rfl, hw⟩]
        have hwhole : c.isNoise term.text = false ∧ term.field ∈ f :: fields ∧
            term.text ∈ (rows term.field).map Prod.fst := ⟨hn, hf ▸ List.mem_cons_self, hw⟩
        rw [hstep, if_pos hwhole, ← hf, List.count_cons_self, Option.getD_some]
        split
        · rw [Int.natCast_succ, Int.add_mul, Int.one_mul, Int.add_assoc, Int.add_comm (total _ _)]
        · next hno =>
          have hnone : fields.count term.field = 0 :=
            List.count_eq_zero_of_not_mem fun hmem => hno ⟨hn, hmem, hw⟩
          rw [hnone, Int.natCast_one, Int.one_mul]
      · have hstep : (t.addRow c f (rows f)).count? term = t.count? term := by
          rw [count?_addRow, if_neg fun h => hf h.2.1]
        rw [hstep, List.count_cons_of_ne (Ne.symm hf)]
        simp only [List.mem_cons, hf, false_or]
    · have hstep : (t.addRow c f (rows f)).count? term = t.count? term := by
        rw [count?_addRow, if_neg]
        rintro ⟨hn, rfl, hmem⟩
        exact hw ⟨hn, hmem⟩
      rw [hstep, if_neg fun h => hw ⟨h.1, h.2.2⟩, if_neg fun h => hw ⟨h.1, h.2.2⟩]

theorem foldlM_addField_eq_ok {fields : List String} {rows : String → List (String × Int)}
    (h : ∀ f ∈ fields, row c analyzer corpus id f = .ok (rows f)) (t : Tally) :
    fields.foldlM (addField c analyzer corpus id) t =
      .ok (fields.foldl (fun t f => t.addRow c f (rows f)) t) := by
  induction fields generalizing t with
  | nil => rfl
  | cons f fields ih =>
    have hrest := ih fun g hg => h g (List.mem_cons_of_mem f hg)
    rw [List.foldlM_cons, addField_eq, h f List.mem_cons_self]
    exact hrest _

theorem row_eq_ok_of_foldlM {fields : List String} {t u : Tally}
    (h : fields.foldlM (addField c analyzer corpus id) t = .ok u) :
    ∀ f ∈ fields, ∃ l, row c analyzer corpus id f = .ok l := by
  induction fields generalizing t with
  | nil => simp
  | cons f fields ih =>
    rw [List.foldlM_cons, addField_eq] at h
    cases hrow : row c analyzer corpus id f with
    | error x =>
      rw [hrow] at h
      cases h
    | ok l =>
      rw [hrow] at h
      exact List.forall_mem_cons.2 ⟨⟨l, hrow⟩, ih h⟩

theorem exists_row_eq_error {fields : List String} {t : Tally} {x : Fault}
    (h : fields.foldlM (addField c analyzer corpus id) t = .error x) :
    ∃ f ∈ fields, row c analyzer corpus id f = .error x := by
  induction fields generalizing t with
  | nil => cases h
  | cons f fields ih =>
    rw [List.foldlM_cons, addField_eq] at h
    cases hrow : row c analyzer corpus id f with
    | error y =>
      rw [hrow] at h
      obtain rfl : y = x := Except.error.inj h
      exact ⟨f, List.mem_cons_self, hrow⟩
    | ok l =>
      rw [hrow] at h
      obtain ⟨g, hg, hx⟩ := ih h
      exact ⟨g, List.mem_cons_of_mem f hg, hx⟩

/-- If all fields that cannot be read fail alike, the document fails with them and only so. -/
theorem ofDocument_eq_error_iff {fields : List String} {x : Fault}
    (hx : ∀ f ∈ fields, ∀ y, row c analyzer corpus id f = .error y → y = x) {y : Fault} :
    ofDocument c analyzer corpus id fields = .error y ↔
      y = x ∧ ∃ f ∈ fields, row c analyzer corpus id f = .error x := by
  constructor
  · intro h
    obtain ⟨f, hf, hrow⟩ := exists_row_eq_error c h
    obtain rfl := hx f hf y hrow
    exact ⟨rfl, f, hf, hrow⟩
  · rintro ⟨rfl, f, hf, hrow⟩
    cases ht : ofDocument c analyzer corpus id fields with
    | error z =>
      obtain ⟨g, hg, hz⟩ := exists_row_eq_error c ht
      rw [hx g hg z hz]
    | ok t =>
      obtain ⟨l, hl⟩ := row_eq_ok_of_foldlM c ht f hf
      rw [hl] at hrow
      cases hrow

theorem exists_rows {fields : List String}
    (h : ∀ f ∈ fields, ∃ l, row c analyzer corpus id f = .ok l) :
    ∃ rows : String → List (String × Int),
      ∀ f ∈ fields, row c analyzer corpus id f = .ok (rows f) := by
  refine ⟨fun f => (row c analyzer corpus id f).toOption.getD [], ?_⟩
  intro f hf
  obtain ⟨l, hl⟩ := h f hf
  dsimp only
  rw [hl]
  rfl

theorem exists_ofDocument_eq_ok {fields : List String}
    (h : ∀ f ∈ fields, ∃ l, row c analyzer corpus id f = .ok l) :
    ∃ t, ofDocument c analyzer corpus id fields = .ok t := by
  obtain ⟨rows, hrows⟩ := exists_rows c h
  exact ⟨_, foldlM_addField_eq_ok c hrows .empty⟩

/-- The fields of a document may be counted in any order. -/
theorem exists_terms_perm_ofDocument {fields fields' : List String} (hp : fields.Perm fields')
    (h : ∀ f ∈ fields, ∃ l, row c analyzer corpus id f = .ok l) :
    ∃ t u, ofDocument c analyzer corpus id fields = .ok t ∧
      ofDocument c analyzer corpus id fields' = .ok u ∧ t.terms.Perm u.terms := by
  obtain ⟨rows, hrows⟩ := exists_rows c h
  have hrows' : ∀ f ∈ fields', row c analyzer corpus id f = .ok (rows f) :=
    fun f hf => hrows f (hp.mem_iff.2 hf)
  refine ⟨_, _, foldlM_addField_eq_ok c hrows .empty, foldlM_addField_eq_ok c hrows' .empty, ?_⟩
  apply terms_perm
  intro term
  rw [count?_foldl_addRow, count?_foldl_addRow, hp.count_eq]
  simp only [hp.mem_iff]

section Criteria

/-- Criteria count alike if they call the same words noise and read as many tokens. -/
structure CountsLike {χ : Type} (c : Criteria ω) (d : Criteria χ) : Prop where
  isNoise : ∀ word, c.isNoise word = d.isNoise word
  maxTokens : c.maxTokens = d.maxTokens

variable {c} {χ : Type} {d : Criteria χ} (h : CountsLike c d)
include h

theorem CountsLike.addRow_eq (t : Tally) (field : String) (row : List (String × Int)) :
    t.addRow c field row = t.addRow d field row := by
  have hcount : count c field = count d field := by
    funext t word n
    unfold count
    rw [h.isNoise]
  unfold addRow
  rw [hcount]

theorem CountsLike.textRow_eq (analyzer : Option Analyzer) (field : String) (texts : List String) :
    textRow c analyzer field texts = textRow d analyzer field texts := by
  unfold textRow
  rw [h.maxTokens]

theorem CountsLike.ofTexts_eq (analyzer : Option Analyzer) (field : String)
    (texts : List String) : ofTexts c analyzer field texts = ofTexts d analyzer field texts := by
  have hrow : addRow c .empty field = addRow d .empty field := funext (h.addRow_eq .empty field)
  unfold ofTexts
  rw [addTexts_eq, addTexts_eq, h.textRow_eq, hrow]

theorem CountsLike.ofDocument_eq (analyzer : Option Analyzer) (corpus : Corpus) (id : String)
    (fields : List String) :
    ofDocument c analyzer corpus id fields = ofDocument d analyzer corpus id fields := by
  have hstep : addField c analyzer corpus id = addField d analyzer corpus id := by
    funext t field
    have hrow : row c analyzer corpus id field = row d analyzer corpus id field := by
      unfold row
      simp only [h.textRow_eq]
    rw [addField_eq, addField_eq, hrow]
    exact congrArg (fun f => Except.map f _) (funext (h.addRow_eq t field))
  unfold ofDocument
  rw [hstep]

end Criteria

/-- The terms of a document are those of the rows of its fields that are no noise. -/
theorem count?_ofDocument_eq_some_iff {fields : List String} {t : Tally}
    (h : ofDocument c analyzer corpus id fields = .ok t) {term : Term} {n : Int} :
    t.count? term = some n ↔ c.isNoise term.text = false ∧ term.field ∈ fields ∧
      ∃ l, row c analyzer corpus id term.field = .ok l ∧ term.text ∈ l.map Prod.fst ∧
        n = fields.count term.field * total l term.text := by
  obtain ⟨rows, hrows⟩ := exists_rows c (row_eq_ok_of_foldlM c h)
  have ht := h.symm.trans (foldlM_addField_eq_ok c hrows .empty)
  obtain rfl := Except.ok.inj ht
  have hempty : count? .empty term = none := rfl
  rw [count?_foldl_addRow, hempty, Option.getD_none, Int.zero_add]
  constructor
  · intro hn
    split at hn
    · next hterm =>
      obtain ⟨hnoise, hf, hmem⟩ := hterm
      exact ⟨hnoise, hf, rows term.field, hrows _ hf, hmem, (Option.some.inj hn).symm⟩
    · cases hn
  · rintro ⟨hnoise, hf, l, hl, hmem, rfl⟩
    obtain rfl : l = rows term.field := Except.ok.inj (hl.symm.trans (hrows _ hf))
    rw [if_pos ⟨hnoise, hf, hmem⟩]

theorem isPositive_textRow {field : String} {texts : List String} {l : List (String × Int)}
    (h : textRow c analyzer field texts = .ok l) : IsPositive l := by
  cases analyzer with
  | none => cases h
  | some a =>
    obtain rfl := Except.ok.inj h
    exact isPositive_ones _

theorem count?_ofTexts_eq_some_iff {field : String} {texts : List String} {t : Tally}
    (h : ofTexts c analyzer field texts = .ok t) {term : Term} {n : Int} :
    t.count? term = some n ↔ c.isNoise term.text = false ∧ term.field = field ∧
      ∃ l, textRow c analyzer field texts = .ok l ∧ term.text ∈ l.map Prod.fst ∧
        n = total l term.text := by
  unfold ofTexts at h
  rw [addTexts_eq] at h
  cases hl : textRow c analyzer field texts with
  | error f =>
    rw [hl] at h
    cases h
  | ok l =>
    rw [hl] at h
    obtain rfl := Except.ok.inj h
    have hempty : count? .empty term = none := rfl
    rw [count?_addRow, hempty, Option.getD_none, Int.zero_add]
    constructor
    · intro hn
      split at hn
      · next hterm =>
        obtain ⟨hnoise, hf, hmem⟩ := hterm
        exact ⟨hnoise, hf, l, rfl, hmem, (Option.some.inj hn).symm⟩
      · cases hn
    · rintro ⟨hnoise, hf, l', hl', hmem, rfl⟩
      obtain rfl := Except.ok.inj hl'
      rw [if_pos ⟨hnoise, hf, hmem⟩]

theorem count_pos_ofTexts {field : String} {texts : List String} {t : Tally}
    (h : ofTexts c analyzer field texts = .ok t) {term : Term} {n : Int}
    (hn : t.count? term = some n) : 0 < n := by
  obtain ⟨-, -, l, hl, hw, rfl⟩ := (count?_ofTexts_eq_some_iff c h).1 hn
  exact isPositive_textRow c hl term.text hw

theorem count_pos_ofDocument {fields : List String} {t : Tally}
    (h : ofDocument c analyzer corpus id fields = .ok t)
    (hrows : ∀ f l, row c analyzer corpus id f = .ok l → IsPositive l) {term : Term} {n : Int}
    (hn : t.count? term = some n) : 0 < n := by
  obtain ⟨-, hf, l, hl, hw, rfl⟩ := (count?_ofDocument_eq_some_iff c h).1 hn
  have hnamed : 0 < (fields.count term.field : Int) :=
    Int.natCast_pos.2 (List.count_pos_iff.2 hf)
  exact Int.mul_pos hnamed (hrows term.field l hl term.text hw)

end Tally
end TermMining
