import Mathlib.Algebra.Order.Ring.Int
import TermMining.Order.Sort.Sorted
import TermMining.Proofs.Number.Product
import TermMining.StringSet
import TermMining.Value.Order

/-! How values of known kinds compare, and what is read from rows of texts. -/
namespace TermMining

namespace Number

theorem compare_zero_congr {m n : Int} (hpos : 0 < m ↔ 0 < n) (hzero : 0 = m ↔ 0 = n) :
    compare 0 m = compare 0 n := by
  simp only [compare, compareOfLessAndEq, hpos, hzero]

theorem mantissa_dyadic_eq_zero_iff (bits : Nat) : (dyadic bits).mantissa = 0 ↔ bits = 0 := by
  unfold dyadic
  split
  · exact Iff.rfl
  · have hlarge : 1 <<< 52 = 2 ^ 52 := by decide
    dsimp only
    omega

theorem compareWhole?_zero (x : Float) :
    compareWhole? 0 x = (place? x).map fun i => compare 0 i := by
  unfold compareWhole? place?
  dsimp only
  by_cases hnan : infinityBits < magnitude x
  · rw [if_pos hnan, if_pos hnan]
    rfl
  rw [if_neg hnan, if_neg hnan, Option.map_some]
  by_cases hinf : magnitude x = infinityBits
  · rw [if_pos hinf, hinf]
    split <;> rfl
  · rw [if_neg hinf, Int.zero_shiftLeft, Int.shiftLeft_eq]
    have hscale : (0 : Int) < 2 ^ (dyadic (magnitude x)).exponent.toNat := Int.pow_pos (by decide)
    have hmantissa := mantissa_dyadic_eq_zero_iff (magnitude x)
    apply congrArg
    apply compare_zero_congr
    · rw [mul_pos_iff_of_pos_right hscale]
      split <;> omega
    · rw [eq_comm, mul_eq_zero_iff_right hscale.ne']
      split <;> omega

end Number

namespace StringSet

theorem members_ofList {l : List String} (h : l.Pairwise (· < ·)) : (ofList l).members = l := by
  induction l with
  | nil => rfl
  | cons s l ih =>
    obtain ⟨hs, hl⟩ := List.pairwise_cons.1 h
    change insertInto s (ofList l).members = s :: l
    rw [ih hl]
    cases l with
    | nil => rfl
    | cons t l => rw [insertInto, if_pos (hs t List.mem_cons_self)]

theorem ofList_members (set : StringSet) : ofList set.members = set := by
  obtain ⟨members, h⟩ := set
  have hmembers := members_ofList h
  generalize ofList members = read at hmembers
  obtain ⟨_, _⟩ := read
  subst hmembers
  rfl

end StringSet

namespace Value

theorem compares_less_int (m n : Int) :
    compares .less (.int m) (.int n) = .ok (decide (m < n)) := by
  change Except.ok (some (compare m n) == some .lt) = _
  congr 1
  rw [Bool.eq_iff_iff]
  simp [Int.compare_eq_lt]

theorem compares_atMost_zero {x : Float} (hx : x.isNaN = false) :
    compares .atMost (.double x) (.int 0) = .ok (!Number.less 0 x) := by
  have hplace : Number.place? x ≠ none := by
    rw [Ne, Number.place?_eq_none_iff, hx]
    exact Bool.false_ne_true
  obtain ⟨i, hi⟩ := Option.ne_none_iff_exists'.1 hplace
  have hless : Number.less 0 x = decide (0 < i) := by
    have hzero : Number.place? 0 = some 0 := by decide
    rw [Number.less, hzero, hi]
  change Except.ok (Comparison.holds .atMost ((Number.compareWhole? 0 x).map Ordering.swap)) = _
  rw [Number.compareWhole?_zero, hi, hless]
  rcases Int.lt_trichotomy 0 i with hpos | rfl | hneg
  · rw [Option.map_some, Option.map_some, Int.compare_eq_lt.2 hpos, decide_eq_true hpos]
    rfl
  · rfl
  · rw [Option.map_some, Option.map_some, Int.compare_eq_gt.2 hneg,
      decide_eq_false (Int.not_lt.2 hneg.le)]
    rfl

theorem compare?_text (a b : String) :
    compare? (.text a) (.text b) =
      some (some (if a < b then .lt else if a = b then .eq else .gt)) := rfl

theorem agrees_text (a b : String) : agrees (.text a) (.text b) = decide (a = b) := by
  change (compare? (.text a) (.text b) == _) = _
  rw [compare?_text]
  by_cases hlt : a < b
  · have hne : a ≠ b := by
      rintro rfl
      exact String.lt_irrefl a hlt
    simp [hlt, hne]
  · by_cases heq : a = b
    · simp [heq]
    · simp [hlt, heq]

theorem find?_texts {p : Value → Bool} (hp : ∀ s, p (.text s) = false) (texts : List String) :
    (texts.map text).find? p = none := by
  simp [hp]

theorem foldl_distinct_texts (kept : List String) {texts : List String}
    (h : (kept ++ texts).Nodup) :
    (texts.map text).foldl (fun kept v => if kept.any v.agrees then kept else kept ++ [v])
      (kept.map text) = (kept ++ texts).map text := by
  induction texts generalizing kept with
  | nil => simp
  | cons s texts ih =>
    have hs : (kept.map text).any (text s).agrees = false := by
      rw [List.any_map, List.any_eq_false]
      intro t ht
      have hne : s ≠ t := ((List.nodup_append.1 h).2.2 t ht s List.mem_cons_self).symm
      simp [agrees_text, hne]
    have hlater := ih (kept ++ [s]) (by simpa using h)
    rw [List.map_cons, List.foldl_cons, hs, if_neg Bool.false_ne_true]
    simpa using hlater

theorem distinct_texts {texts : List String} (h : texts.Nodup) :
    distinct (texts.map text) = .ok (texts.map text) := by
  have hkept := foldl_distinct_texts [] h
  rw [distinct, find?_texts fun s => rfl]
  exact congrArg Except.ok hkept

theorem ascending_texts {texts : List String} (h : texts.Pairwise (· < ·)) :
    ascending (texts.map text) = .ok (texts.map text) := by
  cases texts with
  | nil => rfl
  | cons s texts =>
    have hafter {a b : String} (hab : a < b) :
        ((text b).compare? (text a) == some (some .lt)) = false := by
      have hnot : ¬b < a := String.lt_asymm hab
      have hne : b ≠ a := by
        rintro rfl
        exact hnot hab
      rw [compare?_text, if_neg hnot, if_neg hne]
      rfl
    rw [List.map_cons, ascending, find?_texts fun t => rfl]
    dsimp only
    rw [← List.map_cons, Order.sort_of_pairwise]
    exact List.pairwise_map.2 (h.imp hafter)

theorem written_texts (texts : List String) : (texts.map text).map written = texts := by
  rw [List.map_map]
  exact List.map_id texts

end Value
end TermMining
