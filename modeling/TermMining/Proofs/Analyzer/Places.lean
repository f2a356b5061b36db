import Mathlib.Data.Prod.Lex
import Mathlib.Logic.Function.Iterate
import TermMining.Proofs.Analyzer
import TermMining.Proofs.Tokenizer

/-! Places of tokens through an analysis. A tokenizer lays its tokens out along the text, and what
filters leave of them stays where it was. -/
namespace TermMining

namespace Token

def span (t : Token) : Int ×ₗ Int := toLex (t.start, t.stop)

def slice (s : List Char) (t : Token) : String :=
  String.ofList ((s.take t.stop.toNat).drop t.start.toNat)

def placed (n : Int) (t : Token) : Token := { t with position := n }

/-- The token with its text lowered so many times. -/
def lowered (n : Nat) (t : Token) : Token := { t with text := Text.lowercase^[n] t.text }

def renumbered (ts : List Token) : List Token := ts.mapIdx fun i t => t.placed i

theorem map_placed_renumbered (ts : List Token) :
    (renumbered ts).map (placed 0) = ts.map (placed 0) :=
  map_mapIdx (f := fun i t => t.placed i) (h := placed 0) (fun _ _ => rfl) ts

theorem renumbered_map_placed (ts : List Token) :
    renumbered (ts.map (placed 0)) = renumbered ts := by
  unfold renumbered
  apply List.ext_getElem?
  intro i
  rw [List.getElem?_mapIdx, List.getElem?_mapIdx, List.getElem?_map, Option.map_map]
  rfl

/-- Positions that are about to be counted anew need not be right. -/
theorem renumbered_filter_renumbered {p : Token → Bool} (hp : ∀ t n, p (t.placed n) = p t)
    (ts : List Token) : renumbered ((renumbered ts).filter p) = renumbered (ts.filter p) := by
  have hplaced : ∀ us : List Token, (us.filter p).map (placed 0) = (us.map (placed 0)).filter p := by
    intro us
    rw [List.filter_map]
    simp only [Function.comp_def, hp]
  rw [← renumbered_map_placed, hplaced, map_placed_renumbered, ← hplaced, renumbered_map_placed]

end Token

namespace Tokenizer

variable {tokenizer : Tokenizer} {text : String}

theorem position_eq {i : Nat} {t : Token} (h : (tokenizer.tokens text)[i]? = some t) :
    t.position = i := by
  unfold tokens at h
  rw [List.getElem?_mapIdx] at h
  obtain ⟨l, -, rfl⟩ := Option.map_eq_some_iff.1 h
  rfl

theorem pairwise_position (tokenizer : Tokenizer) (text : String) :
    (tokenizer.tokens text).Pairwise fun t u => t.position < u.position := by
  rw [List.pairwise_iff_getElem]
  intro i j hi hj hij
  rw [position_eq (List.getElem?_eq_getElem hi), position_eq (List.getElem?_eq_getElem hj)]
  exact Int.ofNat_lt.2 hij

theorem pairwise_span (tokenizer : Tokenizer) (text : String) :
    (tokenizer.tokens text).Pairwise fun t u => t.span < u.span := by
  have hlexemes :=
    (Pattern.pairwise_scan_ascending tokenizer.pattern 0 true text.toList).filter tokenizer.keeps
  rw [List.pairwise_iff_getElem] at hlexemes ⊢
  intro i j hi hj hij
  unfold tokens at hi hj ⊢
  rw [List.getElem_mapIdx, List.getElem_mapIdx]
  rw [List.length_mapIdx] at hi hj
  apply Prod.Lex.toLex_lt_toLex.2
  rcases hlexemes i j hi hj hij with hlt | ⟨heq, hlt⟩
  · exact Or.inl (Int.ofNat_lt.2 hlt)
  · exact Or.inr ⟨congrArg Int.ofNat heq, Int.ofNat_lt.2 hlt⟩

/-- A limit on the length drops the tokens that are longer and counts the others anew. -/
theorem tokens_of_maxLength_ne_zero (h : tokenizer.maxLength ≠ 0) (text : String) :
    tokenizer.tokens text = Token.renumbered
      ((({ tokenizer with maxLength := 0 } : Tokenizer).tokens text).filter fun t =>
        t.text.length ≤ tokenizer.maxLength) := by
  let p : Token → Bool := fun t => t.text.length ≤ tokenizer.maxLength
  let found : Pattern.Lexeme → Token := fun l =>
    { text := String.ofList l.chars, start := l.start, stop := l.stop }
  have htokens : ∀ ls : List Pattern.Lexeme,
      (ls.mapIdx fun i l => { found l with position := i }) = Token.renumbered (ls.map found) := by
    intro ls
    apply List.ext_getElem?
    intro i
    unfold Token.renumbered
    rw [List.getElem?_mapIdx, List.getElem?_mapIdx, List.getElem?_map, Option.map_map]
    rfl
  have hkeeps : tokenizer.keeps = p ∘ found := by
    funext l
    have hlen : (String.ofList l.chars).length = l.chars.length := String.length_ofList
    change (decide (tokenizer.maxLength = 0) || _) = decide (((String.ofList l.chars).length : Int) ≤ _)
    rw [decide_eq_false h, Bool.false_or, hlen]
  have hall : (({ tokenizer with maxLength := 0 } : Tokenizer).tokens text) =
      Token.renumbered ((tokenizer.pattern.lexemes text).map found) := by
    rw [← htokens]
    exact congrArg _ (List.filter_eq_self.2 fun _ _ => rfl)
  rw [hall, Token.renumbered_filter_renumbered (fun _ _ => rfl), List.filter_map, ← hkeeps,
    ← htokens]
  rfl

end Tokenizer

namespace Filter

def isLowercase : Filter → Bool
  | lowercase => true
  | stop .. => false
  | length .. => false

/-- A token that filters let through is lowered once by each of them that lowers. -/
theorem eq_lowered_of_applyAll {fs : List Filter} {t u : Token} (h : applyAll fs t = some u) :
    u = t.lowered (fs.countP isLowercase) := by
  induction fs generalizing t with
  | nil => exact (Option.some.inj h).symm
  | cons f fs ih =>
    obtain ⟨v, hv, hu⟩ := Option.bind_eq_some_iff.1 h
    rw [ih hu]
    cases f with
    | lowercase =>
      obtain rfl := Option.some.inj hv
      rw [List.countP_cons_of_pos rfl]
      rfl
    | stop words ignoreCase =>
      rw [apply] at hv
      by_cases hstop : words.contains (if ignoreCase then Text.lowercase t.text else t.text) = true
      · rw [if_pos hstop] at hv
        cases hv
      · rw [if_neg hstop] at hv
        rw [Option.some.inj hv, List.countP_cons_of_neg Bool.false_ne_true]
    | length least most =>
      rw [apply] at hv
      split at hv
      · rw [Option.some.inj hv, List.countP_cons_of_neg Bool.false_ne_true]
      · cases hv

/-- Filters leave some of the tokens, in their order. -/
theorem exists_sublist_applyAll (fs : List Filter) (ts : List Token) :
    ∃ kept : List Token, kept.Sublist ts ∧
      ts.filterMap (applyAll fs) = kept.map (Token.lowered (fs.countP isLowercase)) := by
  induction ts with
  | nil => exact ⟨[], List.Sublist.refl [], rfl⟩
  | cons t ts ih =>
    obtain ⟨kept, hkept, heq⟩ := ih
    cases h : applyAll fs t with
    | none => exact ⟨kept, hkept.cons t, by rw [List.filterMap_cons_none h, heq]⟩
    | some u =>
      refine ⟨t :: kept, hkept.cons_cons t, ?_⟩
      rw [List.filterMap_cons_some h, heq, eq_lowered_of_applyAll h, List.map_cons]

end Filter

/-- The tokens are counted from zero and laid out along the text: none begins before the one in
front of it has ended, no two have the same place, and each has the text that stands there. -/
structure AreLaidOut (s : List Char) (ts : List Token) : Prop where
  position : ∀ (i : Nat) t, ts[i]? = some t → t.position = i
  apart : ts.Pairwise fun t u => t.stop ≤ u.start
  ascending : ts.Pairwise fun t u => t.span < u.span
  slice : ∀ t ∈ ts, 0 ≤ t.start ∧ t.start ≤ t.stop ∧ t.stop ≤ s.length ∧ t.text = t.slice s

theorem areLaidOut_tokens (tokenizer : Tokenizer) (text : String) :
    AreLaidOut text.toList (tokenizer.tokens text) where
  position _ _ := Tokenizer.position_eq
  apart := tokenizer.pairwise_tokens text
  ascending := tokenizer.pairwise_span text
  slice t ht := by
    obtain ⟨before, after, hstands, -⟩ := Tokenizer.standsIn_of_mem_tokens ht
    have hstart := hstands.start_eq
    have hstop := hstands.stop_eq
    refine ⟨by omega, by omega, hstands.stop_le, ?_⟩
    unfold Token.slice
    rw [← hstands.slice_eq, String.ofList_toList]

/-- The tokens that are left are some of those that there were, in their order and at their places,
and each has the text of its place, lowered so many times. -/
structure KeepPlaces (s : List Char) (lowerings : Nat) (source left : List Token) : Prop where
  kept : ∃ kept : List Token, kept.Sublist source ∧ left = kept.map (Token.lowered lowerings)
  ascending : left.Pairwise fun t u => t.position < u.position
  slice : ∀ t ∈ left, t.text = Text.lowercase^[lowerings] (t.slice s)

theorem keepPlaces_filterMap (tokenizer : Tokenizer) (filters : List Filter) (text : String) :
    KeepPlaces text.toList (filters.countP Filter.isLowercase) (tokenizer.tokens text)
      ((Analyzer.chain (some tokenizer) filters).tokens text) := by
  obtain ⟨kept, hkept, heq⟩ := Filter.exists_sublist_applyAll filters (tokenizer.tokens text)
  have hleft : (Analyzer.chain (some tokenizer) filters).tokens text = kept.map _ := heq
  rw [hleft]
  constructor
  · exact ⟨kept, hkept, rfl⟩
  · exact List.pairwise_map.2 ((tokenizer.pairwise_position text).sublist hkept)
  · intro t ht
    obtain ⟨u, hu, rfl⟩ := List.mem_map.1 ht
    obtain ⟨-, -, -, hslice⟩ := (areLaidOut_tokens tokenizer text).slice u (hkept.subset hu)
    exact congrArg _ hslice

/-- Whatever the pattern, the limit on the length and the filters are, tokens keep their places: they
are laid out along the text, and between them the pattern takes nothing; a limit only drops tokens;
and filters leave those that they keep where they were. -/
theorem keepsPlaces_chain (tokenizer : Tokenizer) (filters : List Filter) (text : String) :
    let whole := ({ tokenizer with maxLength := 0 } : Tokenizer).tokens text
    AreLaidOut text.toList (tokenizer.tokens text) ∧
    (∀ before c after, text.toList = before ++ c :: after →
      (∃ t ∈ whole, t.Covers before.length) ∨
        ∀ a, tokenizer.pattern.split? (c :: after) = some a → a.1 = []) ∧
    (tokenizer.maxLength ≠ 0 → tokenizer.tokens text =
      Token.renumbered (whole.filter fun t => t.text.length ≤ tokenizer.maxLength)) ∧
    KeepPlaces text.toList (filters.countP Filter.isLowercase) (tokenizer.tokens text)
      ((Analyzer.chain (some tokenizer) filters).tokens text) := by
  intro whole
  constructor
  · exact areLaidOut_tokens tokenizer text
  constructor
  · intro before c after h
    exact Tokenizer.exists_covers_or { tokenizer with maxLength := 0 } rfl h
  constructor
  · exact fun h => Tokenizer.tokens_of_maxLength_ne_zero h text
  · exact keepPlaces_filterMap tokenizer filters text

example : (⟨.many Pattern.isLowerLatin, 0⟩ : Tokenizer).tokens "ab1" =
    [⟨"ab", 0, 0, 2⟩, ⟨"", 1, 2, 2⟩, ⟨"", 2, 3, 3⟩] := by
  cbv

end TermMining
