import TermMining.Proofs.Pattern
import TermMining.Proofs.Pattern.Scan
import TermMining.Proofs.Pattern.Word

/-! What the word pattern takes out of a text it takes again, as a whole, when nothing else stands
around it. -/
namespace TermMining.Pattern

variable {p sep : Char → Bool} {n : Nat} {s w rest : List Char}

/-- Joined runs go on at each place within them. -/
theorem Joined.eq_nil_of_ends (h : Joined p sep n (w ++ rest)) (hrun : ¬RunsOn p rest)
    (hjoins : ¬JoinsOn p sep rest) : rest = [] := by
  cases rest with
  | nil => rfl
  | cons c rest =>
    rcases h.class_or_between rfl with hc | ⟨hc, -, hbehind⟩
    · exact absurd ⟨c, rest, rfl, hc⟩ hrun
    · exact absurd ⟨c, rest, rfl, hc, runsOn_of_head? hbehind⟩ hjoins

namespace WordKind

variable {k : WordKind}

theorem Forms.ne_nil (h : k.Forms w) : w ≠ [] := by
  obtain ⟨c, hc, -⟩ := h.exists_head
  exact List.ne_nil_of_mem (List.mem_of_mem_head? hc)

theorem Forms.eq_nil_of_standalone (h : standalone.Forms (w ++ rest)) (hw : w ≠ []) :
    rest = [] := by
  obtain ⟨c, hc, -⟩ := h
  have hlen := congrArg List.length hc
  have hpos := List.length_pos_iff.mpr hw
  rw [List.length_append, List.length_singleton] at hlen
  exact List.length_eq_zero_iff.mp (by omega)

/-- A text of a kind has no part in front, of the kind, that ends before the text does. -/
theorem Forms.eq_nil_of_ends (h : k.Forms (w ++ rest)) (hw : k.Forms w)
    (hends : k.EndsBefore rest) : rest = [] := by
  cases k with
  | standalone => exact h.eq_nil_of_standalone hw.ne_nil
  | number =>
    obtain ⟨n, -, h⟩ := h
    exact h.eq_nil_of_ends hends.1 hends.2
  | contraction =>
    obtain ⟨n, h⟩ := h
    exact h.eq_nil_of_ends hends.1 hends.2

end WordKind

/-- In digits joined by points the pattern finds a number. -/
theorem split?_number_ne_none (h : WordKind.number.Forms w) : number.split? w ≠ none := by
  obtain ⟨n, hn, h⟩ := h
  intro hnone
  cases hr : (run Text.isDigit).split? w with
  | none => exact not_runsOn_of_split? hr (runsOn_of_head? h.exists_head)
  | some a =>
    cases hg : (group Text.isDigit isPoint).split? a.2 with
    | some b =>
      rw [number_eq, split?, hr] at hnone
      change (((group Text.isDigit isPoint).split? a.2).bind _).bind _ = none at hnone
      rw [hg] at hnone
      cases hnone
    | none =>
      -- without a point behind the first digits there is none at all
      have happend : a.1 ++ a.2 = w := append_of_split? hr
      obtain ⟨hrun, hno⟩ := isRun_of_split? hr
      rw [← happend] at h
      have hnil := h.eq_nil_of_ends hno (not_joinsOn_of_split? hg)
      rw [hnil, List.append_nil] at h
      obtain ⟨d, hd, hpoint⟩ := h.exists_sep hn
      rw [isPoint_eq_false_of_isDigit (hrun.all d hd)] at hpoint
      cases hpoint

/-- What the pattern takes in front of a text that is of a kind is of that kind too. -/
theorem forms_of_split?_word {k : WordKind} (h : k.Forms (w ++ rest))
    (hsplit : word.split? (w ++ rest) = some (w, rest)) : k.Forms w ∧ k.EndsBefore rest := by
  cases k with
  | number =>
    cases hnumber : number.split? (w ++ rest) with
    | none => exact absurd hnumber (split?_number_ne_none h)
    | some a =>
      rw [word, split?, hnumber] at hsplit
      obtain rfl : a = (w, rest) := Option.some.inj hsplit
      exact forms_of_split?_number hnumber
  | standalone =>
    obtain ⟨k', hforms, hends⟩ := kind_of_split?_word hsplit
    rw [h.eq_nil_of_standalone hforms.ne_nil, List.append_nil] at h
    exact ⟨h, trivial⟩
  | contraction =>
    obtain ⟨k', hforms, hends⟩ := kind_of_split?_word hsplit
    cases k' with
    | contraction => exact ⟨hforms, hends⟩
    | number =>
      obtain ⟨m, hm, hforms⟩ := hforms
      obtain ⟨d, hd, hpoint⟩ := hforms.exists_sep hm
      simp [h.isPoint_eq_false (List.mem_append_left rest hd)] at hpoint
    | standalone =>
      obtain ⟨c, rfl, hc⟩ := hforms
      obtain ⟨n, h⟩ := h
      obtain ⟨d, hd, hspaced⟩ := h.exists_head
      obtain rfl : c = d := by simpa using hd
      simp [isStandalone_eq_false_of_isSpacedWord hspaced] at hc

/-- A text of a kind is taken as a whole. -/
theorem split?_word_of_forms {k : WordKind} (h : k.Forms w) : word.split? w = some (w, []) := by
  cases hsplit : word.split? w with
  | none => exact absurd (runsOn_of_head? h.exists_head) (not_runsOn_of_split?_word hsplit)
  | some a =>
    have happend : a.1 ++ a.2 = w := append_of_split? hsplit
    rw [← happend] at h hsplit
    obtain ⟨hforms, hends⟩ := forms_of_split?_word h hsplit
    have hnil : a.2 = [] := h.eq_nil_of_ends hforms hends
    rw [hnil, List.append_nil] at happend
    rw [← happend, ← hnil]

theorem exists_forms_of_mem_words (h : w ∈ word.words s) : ∃ k : WordKind, k.Forms w := by
  obtain ⟨l, hl, rfl⟩ := List.mem_map.mp h
  obtain ⟨before, after, -, -, hsplit⟩ := foundIn_of_mem_scan hl
  obtain ⟨k, hforms, -⟩ := kind_of_split?_word hsplit
  exact ⟨k, hforms⟩

theorem words_eq_singleton_iff : word.words w = [w] ↔ ∃ k : WordKind, k.Forms w := by
  constructor
  · intro h
    exact exists_forms_of_mem_words (h ▸ List.mem_singleton_self w)
  · rintro ⟨k, h⟩
    have hlt : ([] : List Char).length < w.length := List.length_pos_iff.mpr h.ne_nil
    rw [words_of_split? (split?_word_of_forms h) hlt, words_nil rfl]

end TermMining.Pattern
