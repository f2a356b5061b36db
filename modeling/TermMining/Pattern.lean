/-! Patterns that tokens are found by. A choice takes its first side that matches and a repetition
takes all it can; neither is reconsidered, so a pattern has at most one match at a place. -/
namespace TermMining

inductive Pattern where
  | nothing
  | one (p : Char → Bool)
  /-- Characters of a class, as many as there are, possibly none. -/
  | many (p : Char → Bool)
  | seq (l r : Pattern)
  | choice (l r : Pattern)
  /-- The pattern over and over, as long as it makes progress, possibly not at all. -/
  | repeated (p : Pattern)

/-- A text split in two: what a pattern took and what it left. -/
abbrev Split := List Char × List Char

namespace Pattern

def run (p : Char → Bool) : Pattern := seq (one p) (many p)

def char (c : Char) : Pattern := one (· == c)

/-- Steps until a step fails or takes nothing. -/
def iterate (step : List Char → Option Split) (s : List Char) : Split :=
  match step s with
  | none => ([], s)
  | some (taken, rest) =>
    if rest.length < s.length then
      let more := iterate step rest
      (taken ++ more.1, more.2)
    else ([], s)
termination_by s.length

def split? : Pattern → List Char → Option Split
  | nothing, s => some ([], s)
  | one _, [] => none
  | one p, c :: s => if p c then some ([c], s) else none
  | many p, s => some (s.takeWhile p, s.dropWhile p)
  | seq l r, s => do
    let a ← l.split? s
    let b ← r.split? a.2
    some (a.1 ++ b.1, b.2)
  | choice l r, s => (l.split? s).or (r.split? s)
  | repeated p, s => some (iterate p.split? s)

theorem iterate_append {step : List Char → Option Split}
    (h : ∀ s a, step s = some a → a.1 ++ a.2 = s) (s : List Char) :
    (iterate step s).1 ++ (iterate step s).2 = s := by
  fun_induction iterate step s with
  | case1 => rfl
  | case2 s taken rest hs hlt more ih =>
    rw [List.append_assoc, ih]
    exact h s _ hs
  | case3 => rfl

/-- A match loses and invents nothing. -/
theorem append_of_split? {p : Pattern} {s : List Char} {a : Split} (h : p.split? s = some a) :
    a.1 ++ a.2 = s := by
  induction p generalizing s a with
  | nothing => cases h; rfl
  | one p =>
    cases s with
    | nil => cases h
    | cons c s =>
      rw [split?] at h
      split at h
      · cases h; rfl
      · cases h
  | many p => cases h; exact List.takeWhile_append_dropWhile
  | seq l r hl hr =>
    simp only [split?, Option.bind_eq_bind, Option.bind_eq_some_iff] at h
    obtain ⟨b, hb, c, hc, h⟩ := h
    cases h
    rw [List.append_assoc, hr hc, hl hb]
  | choice l r hl hr =>
    simp only [split?, Option.or_eq_some_iff] at h
    rcases h with h | ⟨_, h⟩
    · exact hl h
    · exact hr h
  | repeated p hp =>
    cases h
    exact iterate_append (fun _ _ => hp) s

/-- A match and the number of characters in front of it. -/
structure Lexeme where
  start : Nat
  chars : List Char
  deriving DecidableEq, Repr

namespace Lexeme

def stop (l : Lexeme) : Nat := l.start + l.chars.length

end Lexeme

/-- The matches in a text, each beginning at the first place where the pattern matches from the
end of the one before. An empty match is not followed by another one at the same place. -/
def scan (p : Pattern) (start : Nat) (emptyAllowed : Bool) (s : List Char) : List Lexeme :=
  match p.split? s with
  | some (taken, rest) =>
    if rest.length < s.length then
      ⟨start, taken⟩ :: scan p (start + taken.length) true rest
    else if emptyAllowed then ⟨start, taken⟩ :: scan p start false s
    else
      match s with
      | [] => []
      | _ :: s => scan p (start + 1) true s
  | none =>
    match s with
    | [] => []
    | _ :: s => scan p (start + 1) true s
termination_by 2 * s.length + emptyAllowed.toNat
decreasing_by all_goals simp_all <;> omega

def lexemes (p : Pattern) (text : String) : List Lexeme := p.scan 0 true text.toList

end Pattern
end TermMining
