import Mathlib.Data.List.Pairwise
import TermMining.Tokenizer
import TermMining.Proofs.Pattern.Attempts
import TermMining.Proofs.Pattern.Scan

/-! Where tokens stand in a text, and which there are. -/
namespace TermMining

namespace Token

/-- The place is one of the token's. -/
def Covers (t : Token) (i : Nat) : Prop := t.start ≤ i ∧ (i : Int) < t.stop

instance (t : Token) (i : Nat) : Decidable (t.Covers i) :=
  inferInstanceAs (Decidable (t.start ≤ i ∧ (i : Int) < t.stop))

/-- The token is what stands in the text between `before` and `after`. -/
structure StandsIn (s : List Char) (t : Token) (before after : List Char) : Prop where
  text_eq : s = before ++ (t.text.toList ++ after)
  start_eq : t.start = before.length
  stop_eq : t.stop = before.length + t.text.toList.length

namespace StandsIn

variable {s before after : List Char} {t : Token} (h : StandsIn s t before after)
include h

theorem slice_eq : t.text.toList = (s.take t.stop.toNat).drop t.start.toNat := by
  have hstart : t.start.toNat = before.length := by rw [h.start_eq, Int.toNat_natCast]
  have hstop : t.stop.toNat = before.length + t.text.toList.length := by rw [h.stop_eq]; rfl
  rw [hstart, hstop, h.text_eq, List.take_length_add_append, List.drop_left, List.take_left]

theorem drop_stop : s.drop t.stop.toNat = after := by
  have hstop : t.stop.toNat = before.length + t.text.toList.length := by rw [h.stop_eq]; rfl
  rw [hstop, h.text_eq, List.drop_length_add_append, List.drop_left]

theorem stop_le : t.stop ≤ s.length := by
  have hlen := congrArg List.length h.text_eq
  rw [List.length_append, List.length_append] at hlen
  rw [h.stop_eq]
  omega

end StandsIn

end Token

namespace Tokenizer

variable {tokenizer : Tokenizer} {text : String}

theorem exists_lexeme_of_mem_tokens {t : Token} (h : t ∈ tokenizer.tokens text) :
    ∃ l ∈ tokenizer.pattern.lexemes text,
      t.text.toList = l.chars ∧ t.start = l.start ∧ t.stop = l.stop := by
  obtain ⟨i, hi, rfl⟩ := List.mem_mapIdx.1 h
  have hmem := List.mem_filter.1 (List.getElem_mem hi)
  exact ⟨_, hmem.1, String.toList_ofList, rfl, rfl⟩

theorem standsIn_of_mem_tokens {t : Token} (h : t ∈ tokenizer.tokens text) :
    ∃ before after, t.StandsIn text.toList before after ∧
      tokenizer.pattern.split? (t.text.toList ++ after) = some (t.text.toList, after) := by
  obtain ⟨l, hl, htext, hstart, hstop⟩ := exists_lexeme_of_mem_tokens h
  obtain ⟨before, after, hs, hlen, hsplit⟩ := Pattern.foundIn_of_mem_scan hl
  rw [Nat.zero_add] at hlen
  rw [← htext] at hs hsplit
  refine ⟨before, after, ⟨hs, by rw [hstart, hlen], ?_⟩, hsplit⟩
  rw [hstop, Pattern.Lexeme.stop, hlen, htext]
  rfl

theorem pairwise_tokens (tokenizer : Tokenizer) (text : String) :
    (tokenizer.tokens text).Pairwise fun t u => t.stop ≤ u.start := by
  have hlexemes :=
    (Pattern.pairwise_scan tokenizer.pattern 0 true text.toList).filter tokenizer.keeps
  rw [List.pairwise_iff_getElem] at hlexemes ⊢
  intro i j hi hj hij
  unfold tokens at hi hj ⊢
  rw [List.getElem_mapIdx, List.getElem_mapIdx]
  rw [List.length_mapIdx] at hi hj
  exact Int.ofNat_le.2 (hlexemes i j hi hj hij)

instance (i : Nat) : Std.Symm fun t u : Token => ¬(t.Covers i ∧ u.Covers i) :=
  ⟨fun _ _ h => mt And.symm h⟩

theorem pairwise_not_covers (tokenizer : Tokenizer) (text : String) (i : Nat) :
    (tokenizer.tokens text).Pairwise fun t u => ¬(t.Covers i ∧ u.Covers i) := by
  refine (pairwise_tokens tokenizer text).imp ?_
  rintro t u hle ⟨ht, hu⟩
  exact Int.lt_irrefl i (Int.lt_of_lt_of_le ht.2 (Int.le_trans hle hu.1))

theorem eq_of_covers {t u : Token} (ht : t ∈ tokenizer.tokens text) (hu : u ∈ tokenizer.tokens text)
    {i : Nat} (hti : t.Covers i) (hui : u.Covers i) : t = u := by
  by_contra hne
  exact (pairwise_not_covers tokenizer text i).forall ht hu hne ⟨hti, hui⟩

theorem countP_covers_eq_one {i : Nat} (h : ∃ t ∈ tokenizer.tokens text, t.Covers i) :
    (tokenizer.tokens text).countP (fun t => t.Covers i) = 1 := by
  obtain ⟨t, ht, hcovers⟩ := h
  have hpairwise := pairwise_not_covers tokenizer text i
  obtain ⟨earlier, later, heq⟩ := List.append_of_mem ht
  rw [heq] at hpairwise ⊢
  obtain ⟨-, hlater, hearlier⟩ := List.pairwise_append.1 hpairwise
  have hzero : earlier.countP (fun t => t.Covers i) = 0 :=
    List.countP_eq_zero.2 fun u hu hui =>
      hearlier u hu t List.mem_cons_self ⟨of_decide_eq_true hui, hcovers⟩
  have hzero' : later.countP (fun t => t.Covers i) = 0 :=
    List.countP_eq_zero.2 fun u hu hui =>
      (List.pairwise_cons.1 hlater).1 u hu ⟨hcovers, of_decide_eq_true hui⟩
  rw [List.countP_append, List.countP_cons, hzero, hzero', if_pos (decide_eq_true hcovers)]

theorem exists_token_of_mem_lexemes (tokenizer : Tokenizer) {l : Pattern.Lexeme}
    (h : l ∈ tokenizer.pattern.lexemes text) (hkeeps : tokenizer.keeps l = true) :
    ∃ t ∈ tokenizer.tokens text, t.start = l.start ∧ t.stop = l.stop := by
  obtain ⟨i, hi, rfl⟩ := List.mem_iff_getElem.1 (List.mem_filter.2 ⟨h, hkeeps⟩)
  exact ⟨_, List.mem_mapIdx.2 ⟨i, hi, rfl⟩, rfl, rfl⟩

/-- Without a limit on the length no place is passed over at which the pattern takes something. -/
theorem exists_covers_or (tokenizer : Tokenizer) (hmax : tokenizer.maxLength = 0) {before after : List Char} {c : Char}
    (h : text.toList = before ++ c :: after) :
    (∃ t ∈ tokenizer.tokens text, t.Covers before.length) ∨
      ∀ a, tokenizer.pattern.split? (c :: after) = some a → a.1 = [] := by
  refine (Pattern.exists_covers_or tokenizer.pattern 0 true h).imp_left ?_
  rintro ⟨l, hl, hcovers⟩
  have hkeeps : tokenizer.keeps l = true := by
    unfold keeps
    rw [decide_eq_true hmax, Bool.true_or]
  obtain ⟨t, ht, hstart, hstop⟩ := tokenizer.exists_token_of_mem_lexemes hl hkeeps
  rw [Nat.zero_add] at hcovers
  refine ⟨t, ht, ?_, ?_⟩
  · rw [hstart]
    exact Int.ofNat_le.2 hcovers.1
  · rw [hstop]
    exact Int.ofNat_lt.2 hcovers.2

end Tokenizer

open Pattern

variable {text : String}

theorem exists_covers_standard {before after : List Char} {c : Char}
    (h : text.toList = before ++ c :: after) (hc : isTokenizable c = true) :
    ∃ t ∈ (Tokenizer.standard 0).tokens text, t.Covers before.length := by
  rcases (Tokenizer.standard 0).exists_covers_or rfl h with hcovers | hempty
  · exact hcovers
  · cases hsplit : Pattern.word.split? (c :: after) with
    | none => exact absurd ⟨c, after, rfl, hc⟩ (not_runsOn_of_split?_word hsplit)
    | some a =>
      obtain ⟨k, hforms, -⟩ := kind_of_split?_word hsplit
      obtain ⟨d, hd, -⟩ := hforms.exists_head
      rw [hempty a hsplit] at hd
      cases hd

theorem exists_kind_of_mem_standard {t : Token} (h : t ∈ (Tokenizer.standard 0).tokens text) :
    ∃ before after, t.StandsIn text.toList before after ∧
      ∃ k : WordKind, k.Forms t.text.toList ∧ k.EndsBefore after := by
  obtain ⟨before, after, hstands, hsplit⟩ := Tokenizer.standsIn_of_mem_tokens h
  exact ⟨before, after, hstands, kind_of_split?_word hsplit⟩

/-- The tokens hold each character that tokens are made of once, and besides those only what joins
them. -/
structure CoversText (s : List Char) (ts : List Token) : Prop where
  once : ∀ (i : Nat) (c : Char), s[i]? = some c → isTokenizable c = true →
    ts.countP (fun t => t.Covers i) = 1
  range : ∀ t ∈ ts, 0 ≤ t.start ∧ t.start < t.stop ∧ t.stop ≤ s.length
  slice : ∀ t ∈ ts, t.text.toList = (s.take t.stop.toNat).drop t.start.toNat
  head : ∀ t ∈ ts, ∃ c, t.text.toList.head? = some c ∧ isTokenizable c = true
  last : ∀ t ∈ ts, ∃ c, t.text.toList.getLast? = some c ∧ isTokenizable c = true
  joins : ∀ t ∈ ts, ∀ before c after, t.text.toList = before ++ c :: after →
    ¬isTokenizable c = true →
    isPoint c = true ∧ Between Text.isDigit before after ∨
      isApostrophe c = true ∧ Between isSpacedWord before after

/-- The standard tokens of a text hold each character that tokens are made of exactly once. -/
theorem coversText_standard (text : String) :
    CoversText text.toList ((Tokenizer.standard 0).tokens text) where
  once i c hi hc := by
    obtain ⟨hlt, rfl⟩ := List.getElem?_eq_some_iff.1 hi
    have hs : text.toList = text.toList.take i ++ text.toList[i] :: text.toList.drop (i + 1) := by
      rw [List.getElem_cons_drop, List.take_append_drop]
    have hcovers := exists_covers_standard hs hc
    rw [List.length_take_of_le hlt.le] at hcovers
    exact Tokenizer.countP_covers_eq_one hcovers
  range t ht := by
    obtain ⟨before, after, hstands, k, hforms, -⟩ := exists_kind_of_mem_standard ht
    obtain ⟨c, hc, -⟩ := hforms.exists_head
    have hpos : 0 < t.text.toList.length := List.length_pos_of_mem (List.mem_of_mem_head? hc)
    have hstart := hstands.start_eq
    have hstop := hstands.stop_eq
    exact ⟨by omega, by omega, hstands.stop_le⟩
  slice t ht := by
    obtain ⟨before, after, hstands, -⟩ := exists_kind_of_mem_standard ht
    exact hstands.slice_eq
  head t ht := by
    obtain ⟨-, -, -, k, hforms, -⟩ := exists_kind_of_mem_standard ht
    exact hforms.exists_head
  last t ht := by
    obtain ⟨-, -, -, k, hforms, -⟩ := exists_kind_of_mem_standard ht
    exact hforms.exists_last
  joins t ht before c after hs hc := by
    obtain ⟨-, -, -, k, hforms, -⟩ := exists_kind_of_mem_standard ht
    exact hforms.joins_of_not_isTokenizable hs hc

/-- Each token is the first match that is tried at its place, has exactly one kind and ends where
that kind ends, and word characters side by side are parted behind a number only. -/
structure HasKinds (s : List Char) (ts : List Token) : Prop where
  first : ∀ t ∈ ts, ∃ before after, t.StandsIn s before after ∧
    (word.attempts (t.text.toList ++ after)).head? = some (t.text.toList, after)
  kind : ∀ t ∈ ts, ∃ before after, t.StandsIn s before after ∧
    ∃ k : WordKind, k.Forms t.text.toList ∧ k.EndsBefore after ∧
      ∀ k' : WordKind, k'.Forms t.text.toList → k' = k
  parted : ∀ (i : Nat) (c d : Char), s[i]? = some c → s[i + 1]? = some d →
    isSpacedWord c = true → isSpacedWord d = true →
    ∀ t ∈ ts, ∀ u ∈ ts, t.Covers i → u.Covers (i + 1) → t ≠ u →
      t.stop = (i + 1 : Nat) ∧ WordKind.number.Forms t.text.toList

/-- The standard tokens of a text have one kind each, and are as long as that kind can be. -/
theorem hasKinds_standard (text : String) :
    HasKinds text.toList ((Tokenizer.standard 0).tokens text) where
  first t ht := by
    obtain ⟨before, after, hstands, hsplit⟩ := Tokenizer.standsIn_of_mem_tokens ht
    exact ⟨before, after, hstands, (takesFirst_word _).symm.trans hsplit⟩
  kind t ht := by
    obtain ⟨before, after, hstands, k, hforms, hends⟩ := exists_kind_of_mem_standard ht
    exact ⟨before, after, hstands, k, hforms, hends, fun k' h' => WordKind.forms_unique h' hforms⟩
  parted i c d hc hd hspaced hspaced' t ht u hu hti hui hne := by
    obtain ⟨before, after, hstands, k, hforms, hends⟩ := exists_kind_of_mem_standard ht
    have hstop : t.stop = (i + 1 : Nat) := by
      by_contra hstop
      have hti' : t.Covers (i + 1) := by
        obtain ⟨hle, hlt⟩ := hti
        exact ⟨by omega, by omega⟩
      exact hne (Tokenizer.eq_of_covers ht hu hti' hui)
    have hafter : RunsOn isSpacedWord after := by
      have hdrop := hstands.drop_stop
      rw [hstop, Int.toNat_natCast] at hdrop
      obtain ⟨hlt, rfl⟩ := List.getElem?_eq_some_iff.1 hd
      exact ⟨_, _, hdrop ▸ List.drop_eq_getElem_cons hlt, hspaced'⟩
    refine ⟨hstop, ?_⟩
    cases k with
    | number => exact hforms
    | contraction => exact absurd hafter hends.1
    | standalone =>
      obtain ⟨b, hb, hstandalone⟩ := hforms
      have hlen : i = before.length := by
        have hend := hstands.stop_eq
        rw [hb, List.length_singleton] at hend
        omega
      rw [hstands.text_eq, hb, hlen, List.getElem?_append_right (Nat.le_refl _), Nat.sub_self] at hc
      obtain rfl := Option.some.inj hc
      exact absurd hstandalone (by simp [isStandalone_eq_false_of_isSpacedWord hspaced])

example : ((Tokenizer.standard 0).tokens "x3.14, 3.14abc").map Token.text =
    ["x3", "14", "3.14", "abc"] := by
  cbv

end TermMining
