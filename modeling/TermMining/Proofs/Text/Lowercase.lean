import Mathlib.Data.List.Forall2
import Mathlib.Logic.Function.Iterate
import TermMining.Text.Lowercase
import TermMining.Proofs.Text.CaseRuns

/-! Lowered texts. Lowering is done once and for all, and all characters but the capital I with a
dot are lowered one to one, word characters to word characters. -/
namespace TermMining.Text

def IsLower (c : Char) : Prop := c ≠ 'Σ' ∧ lowerChar c = [c]

/-- What `c` can become where a text is lowered, unless it is the capital I with a dot. -/
def LowersTo (c d : Char) : Prop :=
  c = 'Σ' ∧ (d = 'ς' ∨ d = 'σ') ∨ c ≠ 'Σ' ∧ lowerChar c = [d]

theorem lowerChar_of_lower?_eq_none {c : Char} (hc : c ≠ 'İ')
    (h : CaseRun.lower? caseRuns c.toNat = none) : lowerChar c = [c] := by
  simp [lowerChar, hc, h]

theorem isLower_of_lower?_eq_none {c : Char} (hc : c ≠ 'İ')
    (h : CaseRun.lower? caseRuns c.toNat = none) : IsLower c := by
  refine ⟨?_, lowerChar_of_lower?_eq_none hc h⟩
  intro hsigma
  rw [hsigma] at h
  revert h
  decide +kernel

/-- A character stays as it is or is moved by a run, but for the capital I with a dot. -/
theorem lowerChar_cases {c : Char} (hc : c ≠ 'İ') :
    CaseRun.lower? caseRuns c.toNat = none ∧ lowerChar c = [c] ∨
      ∃ r ∈ caseRuns, ∃ d, r.Takes c d ∧ lowerChar c = [d] := by
  cases hlower : CaseRun.lower? caseRuns c.toNat with
  | none => exact Or.inl ⟨rfl, lowerChar_of_lower?_eq_none hc hlower⟩
  | some m =>
    obtain ⟨r, hr, htakes⟩ := CaseRun.exists_takes_of_lower? hlower
    exact Or.inr ⟨r, hr, Char.ofNat m, htakes, by simp [lowerChar, hc, hlower]⟩

theorem isLower_of_mem_lowerChar {c d : Char} (hd : d ∈ lowerChar c) (hc : c ≠ 'Σ') :
    IsLower d := by
  by_cases hdotted : c = 'İ'
  · have hmem : d = 'i' ∨ d = '\u0307' := by simpa [hdotted, lowerChar] using hd
    rcases hmem with rfl | rfl <;>
      exact isLower_of_lower?_eq_none (by decide) (by decide +kernel)
  · rcases lowerChar_cases hdotted with ⟨-, hself⟩ | ⟨r, hr, e, htakes, hmoved⟩
    · rw [hself] at hd
      rw [List.mem_singleton.mp hd]
      exact ⟨hc, hself⟩
    · rw [hmoved] at hd
      rw [List.mem_singleton.mp hd]
      exact isLower_of_lower?_eq_none (htakes.ne hr).1 (htakes.lower?_eq_none hr)

theorem isLower_of_mem_lowerAfter {before cs : List Char} :
    ∀ d ∈ lowerAfter before cs, IsLower d := by
  induction cs generalizing before with
  | nil => simp [lowerAfter]
  | cons c rest ih =>
    intro d hd
    rcases List.mem_append.mp hd with hd | hd
    · by_cases hc : c = 'Σ'
      · -- both small sigmas stay as they are
        have hfinal : IsLower 'ς' := isLower_of_lower?_eq_none (by decide) (by decide +kernel)
        have hinner : IsLower 'σ' := isLower_of_lower?_eq_none (by decide) (by decide +kernel)
        rw [if_pos hc, List.mem_singleton] at hd
        rw [hd]
        split
        · exact hfinal
        · exact hinner
      · rw [if_neg hc] at hd
        exact isLower_of_mem_lowerChar hd hc
    · exact ih d hd

theorem lowerAfter_of_isLower {cs : List Char} (h : ∀ c ∈ cs, IsLower c) (before : List Char) :
    lowerAfter before cs = cs := by
  induction cs generalizing before with
  | nil => rfl
  | cons c rest ih =>
    obtain ⟨hc, hself⟩ := h c List.mem_cons_self
    rw [lowerAfter, if_neg hc, hself, ih fun d hd => h d (List.mem_cons_of_mem _ hd)]
    rfl

theorem toList_lowercase (s : String) : (lowercase s).toList = lowerAfter [] s.toList :=
  String.toList_ofList

theorem isLower_lowercase (s : String) : ∀ c ∈ (lowercase s).toList, IsLower c := by
  intro c hc
  rw [toList_lowercase] at hc
  exact isLower_of_mem_lowerAfter c hc

theorem IsLower.ne {c : Char} (h : IsLower c) : c ≠ 'İ' := by
  obtain ⟨-, hself⟩ := h
  rintro rfl
  simp [lowerChar] at hself

theorem lowercase_of_isLower {s : String} (h : ∀ c ∈ s.toList, IsLower c) : lowercase s = s := by
  rw [lowercase, lowerChars, lowerAfter_of_isLower h, String.ofList_toList]

theorem lowercase_lowercase (s : String) : lowercase (lowercase s) = lowercase s :=
  lowercase_of_isLower (isLower_lowercase s)

/-- Lowering a text again and again changes no more than lowering it once. -/
theorem lowercase_iterate (n : Nat) (s : String) :
    lowercase (lowercase^[n] s) = lowercase s := by
  induction n with
  | zero => rfl
  | succ n ih => rw [Function.iterate_succ_apply', lowercase_lowercase, ih]

/-- A final sigma, a capital that becomes two characters, and letters of other scripts. -/
example : lowercase "ΟΔΟΣ İX Ꭰ" = "οδος i\u0307x ꭰ" := by decide +kernel

namespace LowersTo

variable {c d : Char}

/-- The capital I with a dot is lowered to two characters. -/
theorem ne (h : LowersTo c d) : c ≠ 'İ' := by
  intro hc
  rcases h with ⟨hsigma, -⟩ | ⟨-, hlower⟩
  · simp [hc] at hsigma
  · simp [hc, lowerChar] at hlower

theorem cases (h : LowersTo c d) :
    CaseRun.lower? caseRuns c.toNat = none ∧ d = c ∨ c = 'Σ' ∧ (d = 'ς' ∨ d = 'σ') ∨
      ∃ r ∈ caseRuns, r.Takes c d := by
  have hne := h.ne
  rcases h with hsigma | ⟨-, hlower⟩
  · exact Or.inr (Or.inl hsigma)
  · rcases lowerChar_cases hne with ⟨hnone, hself⟩ | ⟨r, hr, e, htakes, hmoved⟩
    · rw [hself] at hlower
      exact Or.inl ⟨hnone, (List.singleton_injective hlower).symm⟩
    · rw [hmoved] at hlower
      rw [List.singleton_injective hlower] at htakes
      exact Or.inr (Or.inr ⟨r, hr, htakes⟩)

/-- A character that no run has stays as it is. -/
theorem eq_of_lower?_eq_none (h : LowersTo c d) (hnone : CaseRun.lower? caseRuns c.toNat = none) :
    d = c := by
  obtain ⟨hsigma, hself⟩ := isLower_of_lower?_eq_none h.ne hnone
  rcases h with ⟨heq, -⟩ | ⟨-, hlower⟩
  · exact absurd heq hsigma
  · rw [hself] at hlower
    exact (List.singleton_injective hlower).symm

theorem eq_of_isDigit (h : LowersTo c d) (hc : isDigit c = true) : d = c := by
  apply h.eq_of_lower?_eq_none
  apply CaseRun.lower?_eq_none_of_has (s := digitRanges) _ hc
  intro r hr
  exact (Bool.and_eq_true_iff.mp (CaseRun.digits_of_mem r hr)).1

theorem eq_of_isStandalone (h : LowersTo c d) (hc : isStandalone c = true) : d = c := by
  apply h.eq_of_lower?_eq_none
  apply CaseRun.lower?_eq_none_of_has (s := standaloneRanges) _ hc
  intro r hr
  exact (Bool.and_eq_true_iff.mp (CaseRun.digits_of_mem r hr)).2

theorem isSpacedWord (h : LowersTo c d) (hc : Pattern.isSpacedWord c = true) :
    Pattern.isSpacedWord d = true := by
  rcases h.cases with ⟨-, rfl⟩ | ⟨-, rfl | rfl⟩ | ⟨r, hr, htakes⟩
  · exact hc
  · decide +kernel
  · decide +kernel
  · exact htakes.isSpacedWord hr hc

end LowersTo

/-- Without a capital I with a dot each character of a text is lowered to one character. -/
theorem forall₂_lowerAfter {cs : List Char} (h : 'İ' ∉ cs) (before : List Char) :
    List.Forall₂ LowersTo cs (lowerAfter before cs) := by
  induction cs generalizing before with
  | nil => exact List.Forall₂.nil
  | cons c rest ih =>
    rw [List.mem_cons, not_or] at h
    have hrest := ih h.2 (c :: before)
    rw [lowerAfter]
    by_cases hc : c = 'Σ'
    · rw [if_pos hc]
      refine List.Forall₂.cons (Or.inl ⟨hc, ?_⟩) hrest
      split
      · exact Or.inl rfl
      · exact Or.inr rfl
    · rw [if_neg hc]
      obtain ⟨d, hd⟩ : ∃ d, lowerChar c = [d] := by
        rcases lowerChar_cases (Ne.symm h.1) with ⟨-, hself⟩ | ⟨r, -, d, -, hmoved⟩
        · exact ⟨c, hself⟩
        · exact ⟨d, hmoved⟩
      rw [hd]
      exact List.Forall₂.cons (Or.inr ⟨hc, hd⟩) hrest

/-- Only the capital I with a dot is lowered to the dot, and the dot itself. -/
theorem dot_mem_lowerChar_iff {c : Char} :
    '\u0307' ∈ lowerChar c ↔ c = 'İ' ∨ c = '\u0307' := by
  by_cases hdotted : c = 'İ'
  · simp [hdotted, lowerChar]
  · rcases lowerChar_cases hdotted with ⟨-, hself⟩ | ⟨r, hr, d, htakes, hmoved⟩
    · simp [hself, hdotted, eq_comm]
    · have hne : d ≠ '\u0307' := (htakes.ne hr).2
      have hc : c ≠ '\u0307' := by
        intro hdot
        have hself : lowerChar '\u0307' = ['\u0307'] := by decide +kernel
        rw [hdot, hself] at hmoved
        exact hne (List.singleton_injective hmoved).symm
      simp [hmoved, hdotted, hc, hne.symm]

theorem dot_mem_lowerAfter_iff {before cs : List Char} :
    '\u0307' ∈ lowerAfter before cs ↔ 'İ' ∈ cs ∨ '\u0307' ∈ cs := by
  induction cs generalizing before with
  | nil => simp [lowerAfter]
  | cons c rest ih =>
    have hhead : '\u0307' ∈ (if c = 'Σ' then [if isFinalSigma before rest then 'ς' else 'σ']
        else lowerChar c) ↔ c = 'İ' ∨ c = '\u0307' := by
      by_cases hsigma : c = 'Σ'
      · rw [if_pos hsigma, hsigma]
        split <;> decide
      · rw [if_neg hsigma, dot_mem_lowerChar_iff]
    rw [lowerAfter, List.mem_append, hhead, ih, List.mem_cons, List.mem_cons, eq_comm (a := 'İ'),
      eq_comm (a := '\u0307')]
    exact or_or_or_comm

end TermMining.Text
