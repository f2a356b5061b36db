import TermMining.Proofs.Pattern.Word
import TermMining.Proofs.Text.Lowercase

/-! A token is lowered to one of its kind and length, unless it has the capital I with a dot. -/
namespace TermMining.Pattern

open Text (LowersTo)

variable {α β : Type} {R : α → β → Prop}

theorem exists_append_of_forall₂ {a b : List α} {t : List β} (h : List.Forall₂ R (a ++ b) t) :
    ∃ u v, t = u ++ v ∧ List.Forall₂ R a u ∧ List.Forall₂ R b v := by
  refine ⟨t.take a.length, t.drop a.length, (List.take_append_drop _ t).symm, ?_, ?_⟩
  · exact (List.forall₂_take_append t a b h.flip).flip
  · exact (List.forall₂_drop_append t a b h.flip).flip

variable {p sep : Char → Bool} {S : Char → Char → Prop}

theorem IsRun.of_forall₂ {r t : List Char} (h : IsRun p r) (hlowered : List.Forall₂ S r t)
    (hp : ∀ c d, S c d → p c = true → p d = true) : IsRun p t := by
  obtain ⟨hne, hall⟩ := h
  constructor
  · rintro rfl
    exact hne (List.forall₂_nil_right_iff.mp hlowered)
  · clear hne
    induction hlowered with
    | nil => exact hall
    | cons hcd _ ih =>
      rw [List.forall_mem_cons] at hall ⊢
      exact ⟨hp _ _ hcd hall.1, ih hall.2⟩

/-- Joined runs whose characters are changed within their classes are as many joined runs. -/
theorem Joined.of_forall₂ {n : Nat} {s t : List Char} (h : Joined p sep n s)
    (hlowered : List.Forall₂ S s t) (hp : ∀ c d, S c d → p c = true → p d = true)
    (hsep : ∀ c d, S c d → sep c = true → sep d = true) : Joined p sep n t := by
  induction h generalizing t with
  | run hr => exact .run (hr.of_forall₂ hlowered hp)
  | join hs hd hr ih =>
    obtain ⟨u, v, rfl, hu, hv⟩ := exists_append_of_forall₂ hlowered
    obtain ⟨d', r', hd', hr', rfl⟩ := List.forall₂_cons_left_iff.mp hv
    exact .join (ih hu) (hsep _ _ hd' hd) (hr.of_forall₂ hr' hp)

theorem isPoint_of_lowersTo {c d : Char} (h : LowersTo c d) (hc : isPoint c = true) :
    isPoint d = true := by
  have hnone : Text.CaseRun.lower? Text.caseRuns c.toNat = none := by
    have hcases : c = '.' ∨ c = ',' := by simpa [isPoint] using hc
    rcases hcases with rfl | rfl <;> decide +kernel
  rwa [h.eq_of_lower?_eq_none hnone]

theorem isApostrophe_of_lowersTo {c d : Char} (h : LowersTo c d) (hc : isApostrophe c = true) :
    isApostrophe d = true := by
  have hnone : Text.CaseRun.lower? Text.caseRuns c.toNat = none := by
    obtain rfl : c = '\x27' := by simpa [isApostrophe] using hc
    decide +kernel
  rwa [h.eq_of_lower?_eq_none hnone]

namespace WordKind

variable {k : WordKind} {s t : List Char}

/-- Lowered one to one, a text of a kind is of this kind. -/
theorem Forms.of_lowersTo (h : k.Forms s) (hlowered : List.Forall₂ LowersTo s t) : k.Forms t := by
  cases k with
  | standalone =>
    obtain ⟨c, rfl, hc⟩ := h
    obtain ⟨d, u, hd, hu, rfl⟩ := List.forall₂_cons_left_iff.mp hlowered
    rw [List.forall₂_nil_left_iff.mp hu, hd.eq_of_isStandalone hc]
    exact ⟨c, rfl, hc⟩
  | number =>
    obtain ⟨n, hn, h⟩ := h
    refine ⟨n, hn, h.of_forall₂ hlowered ?_ fun _ _ => isPoint_of_lowersTo⟩
    intro c d hd hc
    rwa [hd.eq_of_isDigit hc]
  | contraction =>
    obtain ⟨n, h⟩ := h
    exact ⟨n, h.of_forall₂ hlowered (fun _ _ => LowersTo.isSpacedWord)
      fun _ _ => isApostrophe_of_lowersTo⟩

theorem Forms.isTokenizable_or (h : k.Forms s) {c : Char} (hc : c ∈ s) :
    isTokenizable c = true ∨ isPoint c = true ∨ isApostrophe c = true := by
  by_cases htokenizable : isTokenizable c = true
  · exact Or.inl htokenizable
  · obtain ⟨before, after, hs⟩ := List.append_of_mem hc
    exact Or.inr ((h.joins_of_not_isTokenizable hs htokenizable).imp And.left And.left)

theorem Forms.notMem_dot (h : k.Forms s) : '\u0307' ∉ s := by
  intro hdot
  have hcases := h.isTokenizable_or hdot
  revert hcases
  decide +kernel

end WordKind

end TermMining.Pattern
