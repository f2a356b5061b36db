import TermMining.Pattern.Expression
import TermMining.Proofs.Pattern.Joined

/-! What standard tokens look like. A match of the word pattern has exactly one of three kinds, and
what stands behind it does not go on with more of that kind. -/
namespace TermMining.Pattern

def isTokenizable (c : Char) : Bool := Text.isWord c || Text.isStandalone c

/-- What joins the digits of a number. -/
def isPoint (c : Char) : Bool := c == '.' || c == ','

def isApostrophe (c : Char) : Bool := c == '\x27'

inductive WordKind where
  /-- A character of a script written without spaces. -/
  | standalone
  /-- Two or more runs of digits joined by points or commas. -/
  | number
  /-- Runs of word characters of the other scripts joined by apostrophes, be it one run alone. -/
  | contraction

namespace WordKind

def Forms : WordKind → List Char → Prop
  | standalone, s => ∃ c, s = [c] ∧ Text.isStandalone c = true
  | number, s => ∃ n, 2 ≤ n ∧ Joined Text.isDigit isPoint n s
  | contraction, s => ∃ n, Joined isSpacedWord isApostrophe n s

/-- A text behind one of the kind does not belong to it any more. -/
def EndsBefore : WordKind → List Char → Prop
  | standalone, _ => True
  | number, rest => ¬RunsOn Text.isDigit rest ∧ ¬JoinsOn Text.isDigit isPoint rest
  | contraction, rest => ¬RunsOn isSpacedWord rest ∧ ¬JoinsOn isSpacedWord isApostrophe rest

end WordKind

theorem isTokenizable_of_isDigit {c : Char} (h : Text.isDigit c = true) :
    isTokenizable c = true := by
  rw [isTokenizable, Text.isWord_of_isDigit h, Bool.true_or]

theorem isTokenizable_of_isStandalone {c : Char} (h : Text.isStandalone c = true) :
    isTokenizable c = true := by
  rw [isTokenizable, h, Bool.or_true]

theorem isTokenizable_of_isSpacedWord {c : Char} (h : isSpacedWord c = true) :
    isTokenizable c = true := by
  rw [isTokenizable, (Bool.and_eq_true_iff.1 h).1, Bool.true_or]

theorem isTokenizable_cases {c : Char} (h : isTokenizable c = true) :
    Text.isStandalone c = true ∨ isSpacedWord c = true := by
  unfold isTokenizable at h
  unfold isSpacedWord
  cases hc : Text.isStandalone c
  · rw [hc, Bool.or_false] at h
    exact Or.inr (by rw [h]; rfl)
  · exact Or.inl rfl

theorem isStandalone_eq_false_of_isSpacedWord {c : Char} (h : isSpacedWord c = true) :
    Text.isStandalone c = false := by
  simpa using (Bool.and_eq_true_iff.1 h).2

theorem isStandalone_eq_false_of_isApostrophe {c : Char} (h : isApostrophe c = true) :
    Text.isStandalone c = false := by
  obtain rfl : c = '\x27' := by simpa [isApostrophe] using h
  decide

theorem isPoint_disjoint {c : Char} (h : isPoint c = true) :
    Text.isStandalone c = false ∧ isSpacedWord c = false ∧ isApostrophe c = false := by
  have hc : c = '.' ∨ c = ',' := by simpa [isPoint] using h
  rcases hc with rfl | rfl <;> decide

theorem isPoint_eq_false_of_isDigit {c : Char} (h : Text.isDigit c = true) : isPoint c = false := by
  refine Bool.eq_false_iff.2 fun hpoint => ?_
  obtain ⟨hstandalone, hspaced, -⟩ := isPoint_disjoint hpoint
  rw [isSpacedWord, Text.isWord_of_isDigit h, hstandalone] at hspaced
  cases hspaced

theorem number_eq :
    number = seq (run Text.isDigit)
      (seq (group Text.isDigit isPoint) (repeated (group Text.isDigit isPoint))) := rfl

theorem forms_of_split?_number {s w rest : List Char} (h : number.split? s = some (w, rest)) :
    WordKind.number.Forms w ∧ WordKind.number.EndsBefore rest := by
  rw [number_eq] at h
  obtain ⟨⟨r, s₁⟩, a, hr, ha, heq⟩ := split?_seq_eq_some h
  obtain ⟨⟨g, s₂⟩, b, hg, hb, rfl⟩ := split?_seq_eq_some ha
  obtain ⟨hrun, -⟩ := isRun_of_split? hr
  obtain ⟨d, t, rfl, hd, ht, hno⟩ := isRun_of_split?_group hg
  obtain ⟨k, taken, left, hmore, hjoined, hstop⟩ := exists_iterate_group isPoint hno
  obtain rfl : b = (taken, left) := (Option.some.inj hb).symm.trans hmore
  obtain ⟨rfl, rfl⟩ := Prod.mk.inj heq
  have htwo := hjoined 2 (r ++ d :: t) (.join (.run hrun) hd ht)
  rw [List.append_assoc] at htwo
  exact ⟨⟨2 + k, Nat.le_add_right 2 k, htwo⟩, hstop⟩

theorem forms_of_split?_one {s w rest : List Char}
    (h : (one Text.isStandalone).split? s = some (w, rest)) : WordKind.standalone.Forms w := by
  cases s with
  | nil => cases h
  | cons c s =>
    rw [split?] at h
    split at h
    · next hc =>
      cases h
      exact ⟨c, rfl, hc⟩
    · cases h

/-- A match of the word pattern is of some kind, and ends where that kind ends. -/
theorem kind_of_split?_word {s w rest : List Char} (h : word.split? s = some (w, rest)) :
    ∃ k : WordKind, k.Forms w ∧ k.EndsBefore rest := by
  rcases Option.or_eq_some_iff.1 h with hnumber | ⟨-, h⟩
  · exact ⟨.number, forms_of_split?_number hnumber⟩
  · rcases Option.or_eq_some_iff.1 h with hone | ⟨-, hcontraction⟩
    · exact ⟨.standalone, forms_of_split?_one hone, trivial⟩
    · exact ⟨.contraction, joined_of_split? hcontraction⟩

/-- Wherever a character stands that tokens are made of, there is a match. -/
theorem not_runsOn_of_split?_word {s : List Char} (h : word.split? s = none) :
    ¬RunsOn isTokenizable s := by
  rintro ⟨c, more, rfl, hc⟩
  obtain ⟨-, h⟩ := Option.or_eq_none_iff.1 h
  obtain ⟨hone, hcontraction⟩ := Option.or_eq_none_iff.1 h
  rcases isTokenizable_cases hc with hstandalone | hspaced
  · rw [split?, if_pos hstandalone] at hone
    cases hone
  · exact not_runsOn_of_split?_joined hcontraction ⟨c, more, rfl, hspaced⟩

namespace WordKind

variable {k : WordKind} {s : List Char}

theorem Forms.exists_head (h : k.Forms s) : ∃ c, s.head? = some c ∧ isTokenizable c = true := by
  cases k with
  | standalone =>
    obtain ⟨c, rfl, hc⟩ := h
    exact ⟨c, rfl, isTokenizable_of_isStandalone hc⟩
  | number =>
    obtain ⟨n, -, hs⟩ := h
    exact hs.exists_head.imp fun c => And.imp_right isTokenizable_of_isDigit
  | contraction =>
    obtain ⟨n, hs⟩ := h
    exact hs.exists_head.imp fun c => And.imp_right isTokenizable_of_isSpacedWord

theorem Forms.exists_last (h : k.Forms s) :
    ∃ c, s.getLast? = some c ∧ isTokenizable c = true := by
  cases k with
  | standalone =>
    obtain ⟨c, rfl, hc⟩ := h
    exact ⟨c, rfl, isTokenizable_of_isStandalone hc⟩
  | number =>
    obtain ⟨n, -, hs⟩ := h
    exact hs.exists_last.imp fun c => And.imp_right isTokenizable_of_isDigit
  | contraction =>
    obtain ⟨n, hs⟩ := h
    exact hs.exists_last.imp fun c => And.imp_right isTokenizable_of_isSpacedWord

/-- Besides characters that tokens are made of there are only points that join digits and
apostrophes that join words. -/
theorem Forms.joins_of_not_isTokenizable (h : k.Forms s) {before after : List Char} {c : Char}
    (hs : s = before ++ c :: after) (hc : ¬isTokenizable c = true) :
    isPoint c = true ∧ Between Text.isDigit before after ∨
      isApostrophe c = true ∧ Between isSpacedWord before after := by
  cases k with
  | standalone =>
    obtain ⟨d, rfl, hd⟩ := h
    have hmem : c ∈ [d] := by simp [hs]
    rw [List.mem_singleton.1 hmem] at hc
    exact absurd (isTokenizable_of_isStandalone hd) hc
  | number =>
    obtain ⟨n, -, h⟩ := h
    exact Or.inl ((h.class_or_between hs).resolve_left (mt isTokenizable_of_isDigit hc))
  | contraction =>
    obtain ⟨n, h⟩ := h
    exact Or.inr ((h.class_or_between hs).resolve_left (mt isTokenizable_of_isSpacedWord hc))

theorem Forms.not_number_of_standalone (h : standalone.Forms s) : ¬number.Forms s := by
  rintro ⟨n, hn, hs⟩
  obtain ⟨c, rfl, hc⟩ := h
  obtain ⟨d, hd, hpoint⟩ := hs.exists_sep hn
  rw [List.mem_singleton.1 hd] at hpoint
  exact Bool.false_ne_true ((isPoint_disjoint hpoint).1.symm.trans hc)

theorem Forms.not_contraction_of_standalone (h : standalone.Forms s) : ¬contraction.Forms s := by
  rintro ⟨n, hs⟩
  obtain ⟨c, rfl, hc⟩ := h
  rcases hs.class_or_sep c List.mem_cons_self with h | h
  · exact Bool.false_ne_true ((isStandalone_eq_false_of_isSpacedWord h).symm.trans hc)
  · exact Bool.false_ne_true ((isStandalone_eq_false_of_isApostrophe h).symm.trans hc)

theorem Forms.isPoint_eq_false (h : contraction.Forms s) {c : Char} (hc : c ∈ s) :
    isPoint c = false := by
  obtain ⟨n, hs⟩ := h
  refine Bool.eq_false_iff.2 fun hpoint => ?_
  obtain ⟨-, hspaced, hapostrophe⟩ := isPoint_disjoint hpoint
  rcases hs.class_or_sep c hc with h | h
  · exact Bool.false_ne_true (hspaced.symm.trans h)
  · exact Bool.false_ne_true (hapostrophe.symm.trans h)

theorem Forms.not_contraction_of_number (h : number.Forms s) : ¬contraction.Forms s := by
  intro hs
  obtain ⟨m, hm, hnumber⟩ := h
  obtain ⟨d, hd, hpoint⟩ := hnumber.exists_sep hm
  exact Bool.false_ne_true ((hs.isPoint_eq_false hd).symm.trans hpoint)

theorem forms_unique {k k' : WordKind} (h : k.Forms s) (h' : k'.Forms s) : k = k' := by
  cases k <;> cases k'
  case standalone.standalone => rfl
  case standalone.number => exact absurd h' h.not_number_of_standalone
  case standalone.contraction => exact absurd h' h.not_contraction_of_standalone
  case number.standalone => exact absurd h h'.not_number_of_standalone
  case number.number => rfl
  case number.contraction => exact absurd h' h.not_contraction_of_number
  case contraction.standalone => exact absurd h h'.not_contraction_of_standalone
  case contraction.number => exact absurd h h'.not_contraction_of_number
  case contraction.contraction => rfl

end WordKind

end TermMining.Pattern
