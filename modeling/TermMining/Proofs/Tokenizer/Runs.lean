import TermMining.Proofs.Analyzer
import TermMining.Proofs.Tokenizer

/-! Tokens that are runs of a class of characters: each once and as a whole. -/
namespace TermMining

namespace Pattern

variable {p : Char → Bool}

/-- A run with no character of the class in front of it and none behind. -/
structure IsWholeRun (p : Char → Bool) (before r after : List Char) : Prop where
  run : IsRun p r
  front : ∀ c, before.getLast? = some c → p c = false
  behind : ∀ c, after.head? = some c → p c = false

/-- A whole run that begins within another one is that one. -/
theorem IsWholeRun.unique {before r after before' r' after' : List Char}
    (h : IsWholeRun p before r after) (h' : IsWholeRun p before' r' after')
    (heq : before ++ (r ++ after) = before' ++ (r' ++ after'))
    (hle : before.length ≤ before'.length) (hlt : before'.length < before.length + r.length) :
    before = before' ∧ r = r' ∧ after = after' := by
  obtain ⟨x, rfl⟩ : before <+: before' :=
    List.prefix_of_prefix_length_le ⟨_, heq⟩ (List.prefix_append _ _) hle
  rw [List.append_assoc] at heq
  have hrest := List.append_cancel_left heq
  -- the last character between the two beginnings would be of the class
  have hx : x = [] := by
    cases hlast : x.getLast? with
    | none => exact List.getLast?_eq_none_iff.mp hlast
    | some c =>
      obtain ⟨y, rfl⟩ := List.getLast?_eq_some_iff.mp hlast
      have hfront : y ++ [c] <+: r := by
        refine List.prefix_of_prefix_length_le ⟨_, hrest.symm⟩ (List.prefix_append r after) ?_
        simp only [List.length_append] at hlt ⊢
        omega
      have hc : p c = true := h.run.all c (hfront.subset (by simp))
      simp [h'.front c (by simp)] at hc
  subst hx
  rw [List.nil_append] at hrest
  -- nor does one of the two go on where the other ends
  rcases List.append_eq_append_iff.mp hrest with ⟨y, rfl, rfl⟩ | ⟨y, rfl, rfl⟩
  · cases y with
    | nil => simp
    | cons c y =>
      have hc : p c = true := h'.run.all c (by simp)
      simp [h.behind c rfl] at hc
  · cases y with
    | nil => simp
    | cons c y =>
      have hc : p c = true := h.run.all c (by simp)
      simp [h'.behind c rfl] at hc

theorem wordsBetweenBlanks_eq (s : List Char) : wordsBetweenBlanks s = blankFree.words s := by
  fun_induction wordsBetweenBlanks s with
  | case1 => exact (words_nil rfl).symm
  | case2 c s hc ih =>
    have hnone : blankFree.split? (c :: s) = none := by
      rw [blankFree, split?_run_cons, hc]
      rfl
    rw [words_of_split?_eq_none hnone, ih]
  | case3 c s hc ih =>
    have hsome : blankFree.split? (c :: s) =
        some (c :: s.takeWhile (fun d => !Text.isBlank d),
          s.dropWhile fun d => !Text.isBlank d) := by
      rw [blankFree, split?_run_cons, if_pos (by simpa using hc)]
    rw [words_of_split? hsome (Nat.lt_succ_of_le (List.dropWhile_sublist _).length_le), ih]

end Pattern

open Pattern

/-- The tokens are the whole runs of a class, in the order in which they stand in the text. -/
structure AreRuns (p : Char → Bool) (s : List Char) (ts : List Token) : Prop where
  position : ∀ (i : Nat) t, ts[i]? = some t → t.position = i
  apart : ts.Pairwise fun t u => t.stop < u.start
  whole : ∀ t ∈ ts, ∃ before after,
    t.StandsIn s before after ∧ IsWholeRun p before t.text.toList after
  found : ∀ before r after, s = before ++ (r ++ after) → IsWholeRun p before r after →
    ∃ t ∈ ts, t.StandsIn s before after

namespace Tokenizer

variable {p : Char → Bool} {text : String} {t u : Token}

def ofClass (p : Char → Bool) : Tokenizer := ⟨run p, 0⟩

theorem isRun_of_mem_tokens (h : t ∈ (ofClass p).tokens text) :
    ∃ before after, t.StandsIn text.toList before after ∧ IsRun p t.text.toList ∧
      ¬RunsOn p after := by
  obtain ⟨before, after, hstands, hsplit⟩ := standsIn_of_mem_tokens h
  exact ⟨before, after, hstands, isRun_of_split? hsplit⟩

/-- Tokens do not touch: the second would belong to the first. -/
theorem stop_ne_start (ht : t ∈ (ofClass p).tokens text) (hu : u ∈ (ofClass p).tokens text) :
    t.stop ≠ u.start := by
  intro heq
  obtain ⟨before, after, hstands, -, hends⟩ := isRun_of_mem_tokens ht
  obtain ⟨before', after', hstands', hrun, -⟩ := isRun_of_mem_tokens hu
  have hafter : after = u.text.toList ++ after' := by
    rw [← hstands.drop_stop, heq, hstands'.start_eq, hstands'.text_eq, Int.toNat_natCast,
      List.drop_left]
  obtain ⟨c, more, hc⟩ := List.exists_cons_of_ne_nil hrun.ne_nil
  exact hends ⟨c, more ++ after', by simp [hafter, hc], hrun.all c (by simp [hc])⟩

theorem exists_covers_of_class {before after : List Char} {c : Char}
    (h : text.toList = before ++ c :: after) (hc : p c = true) :
    ∃ t ∈ (ofClass p).tokens text, t.Covers before.length := by
  rcases (ofClass p).exists_covers_or rfl h with hcovers | hempty
  · exact hcovers
  · have hsplit : (run p).split? (c :: after) =
        some (c :: after.takeWhile p, after.dropWhile p) := by
      rw [split?_run_cons, if_pos hc]
    cases hempty _ hsplit

theorem isWholeRun_of_mem_tokens (ht : t ∈ (ofClass p).tokens text) :
    ∃ before after, t.StandsIn text.toList before after ∧
      IsWholeRun p before t.text.toList after := by
  obtain ⟨before, after, hstands, hrun, hends⟩ := isRun_of_mem_tokens ht
  refine ⟨before, after, hstands, hrun, ?_, ?_⟩
  · intro c hc
    refine Bool.eq_false_iff.mpr fun hclass => ?_
    -- the token that covers the character in front ends where `t` begins
    obtain ⟨front, rfl⟩ := List.getLast?_eq_some_iff.mp hc
    have hs : text.toList = front ++ c :: (t.text.toList ++ after) := by
      rw [hstands.text_eq, List.append_assoc]
      rfl
    obtain ⟨u, hu, hcovers⟩ := exists_covers_of_class hs hclass
    have hstart : t.start = front.length + 1 := by
      rw [hstands.start_eq, List.length_append]
      rfl
    have hpos : 0 < t.text.toList.length := List.length_pos_iff.mpr hrun.ne_nil
    have hstop := hstands.stop_eq
    rw [← hstands.start_eq] at hstop
    by_cases hnext : u.Covers (front.length + 1)
    · have htcovers : t.Covers (front.length + 1) := ⟨by omega, by omega⟩
      have heq : u = t := eq_of_covers hu ht hnext htcovers
      have hle := hcovers.1
      rw [heq] at hle
      omega
    · have hleft : u.stop = t.start := by
        obtain ⟨hle, hlt⟩ := hcovers
        unfold Token.Covers at hnext
        omega
      exact stop_ne_start hu ht hleft
  · intro c hc
    obtain ⟨more, rfl⟩ := List.head?_eq_some_iff.mp hc
    exact Bool.eq_false_iff.mpr fun hclass => hends ⟨c, more, rfl, hclass⟩

/-- A tokenizer of a class finds the whole runs of it and nothing else. -/
theorem areRuns_tokens (p : Char → Bool) (text : String) :
    AreRuns p text.toList ((ofClass p).tokens text) where
  position i t h := by
    unfold tokens at h
    rw [List.getElem?_mapIdx] at h
    obtain ⟨l, -, rfl⟩ := Option.map_eq_some_iff.mp h
    rfl
  apart := by
    refine (pairwise_tokens (ofClass p) text).imp_of_mem fun ht hu hle => ?_
    have hne := stop_ne_start ht hu
    omega
  whole t ht := isWholeRun_of_mem_tokens ht
  found before r after hs hrun := by
    obtain ⟨c, more, rfl⟩ := List.exists_cons_of_ne_nil hrun.run.ne_nil
    obtain ⟨t, ht, hcovers⟩ := exists_covers_of_class hs (hrun.run.all c List.mem_cons_self)
    obtain ⟨before', after', hstands, hwhole⟩ := isWholeRun_of_mem_tokens ht
    obtain ⟨hle, hlt⟩ := hcovers
    rw [hstands.start_eq] at hle
    rw [hstands.stop_eq] at hlt
    obtain ⟨rfl, -, rfl⟩ := hwhole.unique hrun (hstands.text_eq.symm.trans hs) (by omega) (by omega)
    exact ⟨t, ht, hstands⟩

end Tokenizer

/-- The words between white space are the tokens between white space, less their places. -/
theorem Analyzer.plainTokens_eq (text : String) :
    plainTokens text =
      (Tokenizer.whitespace.tokens text).map fun t => { t with start := 0, stop := 0 } := by
  have hall : (blankFree.lexemes text).filter Tokenizer.whitespace.keeps = blankFree.lexemes text :=
    List.filter_eq_self.mpr fun _ _ => rfl
  have htokens : Tokenizer.whitespace.tokens text = (blankFree.lexemes text).mapIdx fun i l =>
      { text := String.ofList l.chars, position := i, start := l.start, stop := l.stop } := by
    rw [← hall]
    rfl
  unfold plainTokens
  rw [wordsBetweenBlanks_eq, htokens]
  refine List.ext_getElem? fun i => ?_
  simp only [List.getElem?_mapIdx, List.getElem?_map, words, Option.map_map, lexemes]
  rfl

/-- Splitting at white space gives the words that the tokenizer for white space finds, at the same
positions; and the tokens of that tokenizer and of the one for letters are the whole runs of their
classes, each once, in order and with its place. -/
theorem splits_into_runs (text : String) :
    (Analyzer.chain none []).tokens text =
      (Tokenizer.whitespace.tokens text).map (fun t => { t with start := 0, stop := 0 }) ∧
    AreRuns (fun c => !Text.isBlank c) text.toList (Tokenizer.whitespace.tokens text) ∧
    AreRuns (fun c => Text.isWord c && !Text.isDigit c && c != '_') text.toList
      (Tokenizer.letter.tokens text) := by
  constructor
  · exact List.filterMap_some.trans (Analyzer.plainTokens_eq text)
  constructor
  · exact Tokenizer.areRuns_tokens _ text
  · exact Tokenizer.areRuns_tokens Text.isLetterLike text

end TermMining
