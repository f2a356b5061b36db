import TermMining.Pattern

/-! Separators. No match crosses a character that the pattern has in none of its classes, so the
matches in two texts with such a character between them are those of the one and then those of the
other. -/
namespace TermMining

/-- A match with more text behind it. -/
def Split.before (a : Split) (more : List Char) : Split := (a.1, a.2 ++ more)

namespace Pattern

/-- No class of the pattern has the character. -/
def Avoids (sep : Char) : Pattern → Prop
  | nothing => True
  | one p => p sep = false
  | many p => p sep = false
  | seq l r => l.Avoids sep ∧ r.Avoids sep
  | choice l r => l.Avoids sep ∧ r.Avoids sep
  | repeated p => p.Avoids sep

instance decidableAvoids (sep : Char) : (p : Pattern) → Decidable (p.Avoids sep)
  | nothing => inferInstanceAs (Decidable True)
  | one p => inferInstanceAs (Decidable (p sep = false))
  | many p => inferInstanceAs (Decidable (p sep = false))
  | seq l r => @instDecidableAnd _ _ (decidableAvoids sep l) (decidableAvoids sep r)
  | choice l r => @instDecidableAnd _ _ (decidableAvoids sep l) (decidableAvoids sep r)
  | repeated p => decidableAvoids sep p

theorem takeWhile_append_cons {p : Char → Bool} {sep : Char} (h : p sep = false)
    (s more : List Char) : (s ++ sep :: more).takeWhile p = s.takeWhile p := by
  induction s with
  | nil => exact List.takeWhile_cons_of_neg (Bool.eq_false_iff.1 h)
  | cons c s ih => rw [List.cons_append, List.takeWhile_cons, List.takeWhile_cons, ih]

theorem dropWhile_append_cons {p : Char → Bool} {sep : Char} (h : p sep = false)
    (s more : List Char) : (s ++ sep :: more).dropWhile p = s.dropWhile p ++ sep :: more := by
  induction s with
  | nil => exact List.dropWhile_cons_of_neg (Bool.eq_false_iff.1 h)
  | cons c s ih =>
    rw [List.cons_append, List.dropWhile_cons, List.dropWhile_cons, ih]
    split <;> rfl

/-- What follows two texts alike does not change which of them is shorter. -/
theorem length_append_lt_iff (rest s more : List Char) :
    (rest ++ more).length < (s ++ more).length ↔ rest.length < s.length := by
  rw [List.length_append, List.length_append]
  omega

theorem iterate_append_of {step : List Char → Option Split} {more : List Char}
    (h : ∀ s, step (s ++ more) = (step s).map (·.before more)) (s : List Char) :
    iterate step (s ++ more) = (iterate step s).before more := by
  fun_induction iterate step s with
  | case1 s hs =>
    rw [iterate, h, hs]
    rfl
  | case2 s taken rest hs hlt _ ih =>
    have hlonger := (length_append_lt_iff rest s more).2 hlt
    rw [iterate, h, hs]
    simp only [Option.map_some, Split.before, if_pos hlonger]
    rw [ih]
    rfl
  | case3 s taken rest hs hge =>
    have hlonger := mt (length_append_lt_iff rest s more).1 hge
    rw [iterate, h, hs]
    simp only [Option.map_some, Split.before, if_neg hlonger]

/-- What stands behind a separator changes no match in front of it. -/
theorem split?_append_cons {p : Pattern} {sep : Char} (h : p.Avoids sep) (s more : List Char) :
    p.split? (s ++ sep :: more) = (p.split? s).map (·.before (sep :: more)) := by
  induction p generalizing s with
  | nothing => rfl
  | one p =>
    cases s with
    | nil => exact if_neg (Bool.eq_false_iff.1 h)
    | cons c s =>
      rw [List.cons_append, split?, split?]
      split <;> rfl
  | many p =>
    rw [split?, split?, takeWhile_append_cons h, dropWhile_append_cons h]
    rfl
  | seq l r hl hr =>
    rw [split?, split?, hl h.1]
    cases l.split? s with
    | none => rfl
    | some a =>
      change (r.split? (a.2 ++ sep :: more)).bind _ = ((r.split? a.2).bind _).map _
      rw [hr h.2]
      cases r.split? a.2 <;> rfl
  | choice l r hl hr =>
    rw [split?, split?, hl h.1, hr h.2, Option.map_or]
  | repeated p hp =>
    rw [split?, split?, iterate_append_of (hp h)]
    rfl

def words (p : Pattern) (s : List Char) : List (List Char) := (p.scan 0 true s).map Lexeme.chars

theorem chars_scan (p : Pattern) (n m : Nat) (emptyAllowed : Bool) (s : List Char) :
    (p.scan n emptyAllowed s).map Lexeme.chars = (p.scan m emptyAllowed s).map Lexeme.chars := by
  fun_induction scan p n emptyAllowed s generalizing m with
  | case1 n e s taken rest hs hlt ih =>
    rw [scan.eq_def p m, hs]
    simp only [if_pos hlt, List.map_cons]
    rw [ih]
  | case2 n s taken rest hs hge ih =>
    rw [scan.eq_def p m, hs]
    simp only [if_neg hge, if_true, List.map_cons]
    rw [ih]
  | case3 n e taken rest he hs hge =>
    rw [scan.eq_def p m, hs]
    simp only [if_neg hge, if_neg he]
  | case4 n e taken rest he c s hs hge ih =>
    rw [scan.eq_def p m, hs]
    simp only [if_neg hge, if_neg he]
    rw [ih]
  | case5 n e hs =>
    rw [scan.eq_def p m, hs]
  | case6 n e c s hs ih =>
    rw [scan.eq_def p m, hs]
    dsimp only
    rw [ih]

theorem chars_scan_append_cons {p : Pattern} {sep : Char} (h : p.Avoids sep) (n : Nat)
    (emptyAllowed : Bool) (s more : List Char) :
    (p.scan n emptyAllowed (s ++ sep :: more)).map Lexeme.chars =
      (p.scan n emptyAllowed s).map Lexeme.chars ++ p.words more := by
  -- the scan takes the same steps as over the first text, and at its end it passes the separator over
  have hsplit := split?_append_cons h
  have hlonger := fun rest s => length_append_lt_iff rest s (sep :: more)
  fun_induction scan p n emptyAllowed s with
  | case1 n e s taken rest hs hlt ih =>
    rw [scan.eq_def, hsplit, hs]
    simp only [Option.map_some, Split.before, if_pos ((hlonger rest s).2 hlt), List.map_cons]
    rw [ih]
    rfl
  | case2 n s taken rest hs hge ih =>
    rw [scan.eq_def, hsplit, hs]
    simp only [Option.map_some, Split.before, if_neg (mt (hlonger rest s).1 hge), if_true,
      List.map_cons]
    rw [ih]
    rfl
  | case3 n e taken rest he hs hge =>
    rw [scan.eq_def, hsplit, hs]
    simp only [Option.map_some, Split.before, if_neg (mt (hlonger rest []).1 hge), if_neg he]
    exact p.chars_scan (n + 1) 0 true more
  | case4 n e taken rest he c s hs hge ih =>
    rw [scan.eq_def, hsplit, hs]
    simp only [Option.map_some, Split.before, if_neg (mt (hlonger rest (c :: s)).1 hge), if_neg he]
    exact ih
  | case5 n e hs =>
    rw [scan.eq_def, hsplit, hs]
    exact p.chars_scan (n + 1) 0 true more
  | case6 n e c s hs ih =>
    rw [scan.eq_def, hsplit, hs]
    exact ih

/-- The matches in texts with a separator between them are those of each. -/
theorem words_append_cons {p : Pattern} {sep : Char} (h : p.Avoids sep) (s more : List Char) :
    p.words (s ++ sep :: more) = p.words s ++ p.words more :=
  chars_scan_append_cons h 0 true s more

theorem words_nil {p : Pattern} (h : p.split? [] = none) : p.words [] = [] := by
  unfold words
  rw [scan.eq_def, h]
  rfl

theorem words_of_split? {s w rest : List Char} {p : Pattern} (h : p.split? s = some (w, rest))
    (hlt : rest.length < s.length) : p.words s = w :: p.words rest := by
  unfold words
  rw [scan.eq_def, h]
  simp only [if_pos hlt, List.map_cons]
  rw [chars_scan p _ 0]

theorem words_of_split?_eq_none {c : Char} {s : List Char} {p : Pattern}
    (h : p.split? (c :: s) = none) : p.words (c :: s) = p.words s := by
  unfold words
  rw [scan.eq_def, h]
  exact p.chars_scan 1 0 true s

end Pattern
end TermMining
