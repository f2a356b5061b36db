import Mathlib.Data.Prod.Lex
import Mathlib.Data.String.Basic
import Mathlib.Order.WithBot
import TermMining.Candidate
import TermMining.Order.Sorted
import TermMining.Proofs.Number.Product

/-! Ranks of candidates: the place of the score on a line, and where scores are level the term.
Outranking is the order of ranks, so among scored candidates it is a weak order. -/
namespace TermMining

/-- Weights whose numbers stand on a line. `⊥` is the place of what is no number. -/
class PlacedWeight (ω : Type) [Weight ω] where
  Line : Type
  [order : LinearOrder Line]
  place : ω → WithBot Line
  less_iff : ∀ x y, Weight.less x y = true ↔ place x ≠ ⊥ ∧ place x < place y
  same_iff : ∀ x y, Weight.same x y = true ↔ place x ≠ ⊥ ∧ place x = place y
  /-- A count may be out of range; nothing else can be wrong with it. -/
  ofInt_error : ∀ {n f}, (Weight.ofInt n : Except ArithFault ω) = .error f → f = .integerTooLarge
  /-- A number counted so often is a number, unless it is not counted at all. -/
  place_mul_ofInt : ∀ {n} {w x : ω}, n ≠ 0 → Weight.ofInt n = .ok w → place x ≠ ⊥ →
    place (Weight.mul w x) ≠ ⊥

attribute [reducible, instance] PlacedWeight.order

open PlacedWeight

namespace Number

/-- The place of a double, below all others if it is no number. -/
def place (x : Float) : WithBot Int :=
  match place? x with
  | none => ⊥
  | some i => (i : WithBot Int)

theorem place_ne_bot_iff (x : Float) : place x ≠ ⊥ ↔ x.isNaN = false := by
  rw [Bool.eq_false_iff, Ne, Ne, ← place?_eq_none_iff, place]
  cases place? x <;> simp

theorem weight_ofInt (n : Int) :
    (Weight.ofInt n : Except ArithFault Float) =
      (ofInt? n).elim (.error .integerTooLarge) .ok := rfl

theorem ofInt_eq_ok_iff {n : Int} {x : Float} : Weight.ofInt n = .ok x ↔ ofInt? n = some x := by
  rw [weight_ofInt]
  cases ofInt? n <;> simp

end Number

instance : PlacedWeight Float where
  Line := Int
  place := Number.place
  less_iff x y := by
    change Number.less x y = true ↔ Number.place x ≠ ⊥ ∧ Number.place x < Number.place y
    unfold Number.less Number.place
    cases Number.place? x <;> cases Number.place? y <;> simp
  same_iff x y := by
    change Number.same x y = true ↔ Number.place x ≠ ⊥ ∧ Number.place x = Number.place y
    unfold Number.same Number.place
    cases Number.place? x <;> cases Number.place? y <;> simp
  ofInt_error {n f} h := by
    rw [Number.weight_ofInt] at h
    cases hn : Number.ofInt? n with
    | none => simpa [hn, eq_comm] using h
    | some x => simp [hn] at h
  place_mul_ofInt {n w x} hn hw hx := by
    have hw := Number.isProper_of_ofInt? hn (Number.ofInt_eq_ok_iff.1 hw)
    rw [Number.place_ne_bot_iff] at hx ⊢
    exact Number.isNaN_mul_of_isProper hw hx

namespace Candidate

variable {ω : Type} [Weight ω] [PlacedWeight ω]

/-- The place of the score, and at level scores the term, from last to first. -/
def rank (c : Candidate ω) : WithBot (Line ω) ×ₗ (String ×ₗ String)ᵒᵈ :=
  toLex (place c.score, OrderDual.toDual (toLex (c.term.field, c.term.text)))

def IsScored (c : Candidate ω) : Prop := place c.score ≠ ⊥

/-- The two rank alike: equal scores and the same term. -/
def Level (a b : Candidate ω) : Prop := Weight.same a.score b.score = true ∧ a.term = b.term

theorem rank_lt_iff (a b : Candidate ω) :
    a.rank < b.rank ↔
      place a.score < place b.score ∨ place a.score = place b.score ∧ b.term < a.term := by
  unfold rank
  rw [Prod.Lex.toLex_lt_toLex, OrderDual.toDual_lt_toDual, Prod.Lex.toLex_lt_toLex]
  rfl

theorem outranks_iff {a b : Candidate ω} (ha : a.IsScored) :
    a.outranks b = true ↔ b.IsScored ∧ b.rank < a.rank := by
  unfold outranks
  rw [rank_lt_iff]
  split
  · next h =>
    obtain ⟨-, h⟩ := (same_iff _ _).1 h
    have hb : b.IsScored := by
      rw [IsScored, ← h]
      exact ha
    simp [h, hb]
  · next h =>
    rw [same_iff, not_and] at h
    have h := h ha
    rw [less_iff]
    simp [Ne.symm h, IsScored]

theorem place_le_of_rank_le {a b : Candidate ω} (h : b.rank ≤ a.rank) :
    place b.score ≤ place a.score := by
  rcases h.lt_or_eq with hlt | heq
  · rcases (rank_lt_iff b a).1 hlt with hplace | ⟨hplace, -⟩
    · exact hplace.le
    · exact hplace.le
  · exact (congrArg (fun r => (ofLex r).1) heq).le

theorem place_le_of_outranks {a b : Candidate ω} (ha : a.IsScored) (h : a.outranks b = true) :
    place b.score ≤ place a.score := place_le_of_rank_le ((outranks_iff ha).1 h).2.le

theorem before_iff {a b : Candidate ω} (ha : a.IsScored) (hb : b.IsScored) :
    a.before b = true ↔ a.rank < b.rank :=
  (outranks_iff hb).trans (and_iff_right ha)

theorem before_eq_false_iff {a b : Candidate ω} (ha : a.IsScored) (hb : b.IsScored) :
    a.before b = false ↔ b.rank ≤ a.rank := by
  rw [← not_lt, ← before_iff ha hb, Bool.not_eq_true]

theorem isWeakOrder_before :
    Order.IsWeakOrder (before : Candidate ω → Candidate ω → Bool) IsScored where
  asymm {a b} ha hb hab := by
    rw [before_eq_false_iff hb ha]
    exact ((before_iff ha hb).1 hab).le
  trans {a b c} ha hb hc hab hbc := by
    rw [before_eq_false_iff hb ha] at hab
    rw [before_eq_false_iff hc hb] at hbc
    rw [before_eq_false_iff hc ha]
    exact hab.trans hbc

theorem rank_eq_iff {a b : Candidate ω} (ha : a.IsScored) : a.rank = b.rank ↔ a.Level b := by
  unfold rank Level
  rw [same_iff, toLex_inj, Prod.ext_iff, OrderDual.toDual_inj, toLex_inj, Prod.ext_iff]
  have ht : a.term = b.term ↔ a.term.field = b.term.field ∧ a.term.text = b.term.text := by
    cases a.term
    cases b.term
    simp
  rw [ht]
  exact and_congr_left fun _ => (and_iff_right ha).symm

theorem outranks_or_outranks {a b : Candidate ω} (ha : a.IsScored) (hb : b.IsScored)
    (h : a.term ≠ b.term) : a.outranks b = true ∨ b.outranks a = true := by
  rw [outranks_iff ha, outranks_iff hb]
  rcases lt_trichotomy a.rank b.rank with hlt | heq | hlt
  · exact Or.inr ⟨ha, hlt⟩
  · exact absurd ((rank_eq_iff ha).1 heq).2 h
  · exact Or.inl ⟨hb, hlt⟩

end Candidate
end TermMining
