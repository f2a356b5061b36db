import Mathlib.Tactic.MkIffOfInductiveProp
import TermMining.Criteria.Settings
import TermMining.Proofs.TermVector
import TermMining.Proofs.Value

/-! Checking criteria, writing them out and reading them back. -/
namespace TermMining

namespace Criteria

/-- All that is checked of criteria, in the order of the checks, and whether it is violated. -/
def checks (c : Criteria Float) : List (Violation × Bool) :=
  [(.negative .minTermFreq, c.minTermFreq < 0),
   (.negative .minDocFreq, c.minDocFreq < 0),
   (.negative .minWordLen, c.minWordLen < 0),
   (.negative .maxWordLen, c.maxWordLen < 0),
   (.negative .maxTokens, c.maxTokens < 0),
   (.negative .maxDocFreq, c.maxDocFreq.any (· < 0)),
   (.noQueryTerms, c.maxQueryTerms < 1),
   (.boostNotPositive, !Number.less 0 c.boostFactor),
   (.wordLensCrossed, 0 < c.maxWordLen && c.maxWordLen < c.minWordLen)]

def violations (c : Criteria Float) : List Violation := (c.checks.filter Prod.snd).map Prod.fst

/-- Criteria that can be read. -/
@[mk_iff]
structure InRange (c : Criteria Float) : Prop where
  minTermFreq : 0 ≤ c.minTermFreq
  minDocFreq : 0 ≤ c.minDocFreq
  minWordLen : 0 ≤ c.minWordLen
  maxWordLen : 0 ≤ c.maxWordLen
  maxTokens : 0 ≤ c.maxTokens
  maxDocFreq : ∀ n ∈ c.maxDocFreq, 0 ≤ n
  maxQueryTerms : 1 ≤ c.maxQueryTerms
  boostFactor : Number.less 0 c.boostFactor = true
  wordLens : c.maxWordLen ≤ 0 ∨ c.minWordLen ≤ c.maxWordLen

theorem violations_eq_nil_iff (c : Criteria Float) : c.violations = [] ↔ c.InRange := by
  have hnone : c.violations = [] ↔ c.checks.any Prod.snd = false := by
    rw [violations, List.map_eq_nil_iff, List.filter_eq_nil_iff, List.any_eq_false]
  rw [hnone, inRange_iff]
  simp [checks, Option.any_eq_false, or_iff_not_imp_left]

end Criteria

namespace Settings

def refuse (check : Violation × Bool) : Except Fault Unit :=
  if check.2 then throw (.outOfRange check.1) else pure ()

theorem forM_refuse (checks : List (Violation × Bool)) :
    checks.forM refuse =
      match ((checks.filter Prod.snd).map Prod.fst).head? with
      | none => .ok ()
      | some v => .error (.outOfRange v) := by
  induction checks with
  | nil => rfl
  | cons r checks ih =>
    obtain ⟨v, violated⟩ := r
    cases violated with
    | true => rfl
    | false => exact ih

theorem ok_bind {α β : Type} (a : α) (f : α → Except Fault β) : (Except.ok a >>= f) = f a := rfl

/-- A check in front of others, in the form that `if` has in a `do` block. -/
theorem ite_throw_bind (v : Violation) (violated : Bool) (rest : Unit → Except Fault Unit) :
    (if violated = true then throw (.outOfRange v) >>= rest else rest ()) =
      refuse (v, violated) >>= rest := by
  cases violated <;> rfl

variable {c : Criteria Float}

theorem checkRanges_ofCriteria (hc : c.boostFactor.isNaN = false) :
    (ofCriteria c).checkRanges = c.checks.forM refuse := by
  -- The first six checks are a loop over the thresholds, the others stand by themselves.
  have hthresholds : (ofCriteria c).thresholds.forM (fun t => do
      if ← t.2.compares .less (.int 0) then throw (Fault.outOfRange (.negative t.1))) =
        (c.checks.take 6).forM refuse := by
    unfold thresholds ofCriteria Criteria.checks
    cases c.maxDocFreq with
    | none => simp [Value.compares_less_int, ok_bind, refuse]
    | some n => simp [Value.compares_less_int, ok_bind, refuse]
  have hlens (a b : Int) : (if decide (0 < a) = true then
      (if decide (a < b) = true then throw (Fault.outOfRange .wordLensCrossed) else pure ())
        else pure () : Except Fault Unit) =
          [(Violation.wordLensCrossed, decide (0 < a) && decide (a < b))].forM refuse := by
    cases decide (0 < a) <;> cases decide (a < b) <;> rfl
  have hsplit : c.checks.forM refuse =
      (c.checks.take 6).forM refuse >>= fun _ => (c.checks.drop 6).forM refuse := by
    have happend : forM (c.checks.take 6 ++ c.checks.drop 6) refuse = _ := List.forM_append
    rw [List.take_append_drop] at happend
    exact happend
  unfold checkRanges
  rw [hthresholds, hsplit]
  simp only [ofCriteria, Value.compares_less_int, Value.compares_atMost_zero hc, ok_bind,
    ite_throw_bind, hlens]
  rfl

/-- Reading settings that were written out is checking them, whatever their values are, as long as
the stop words are distinct and ascend. -/
theorem read_entries {s : Settings} (hdistinct : Value.distinct s.stopWords = .ok s.stopWords)
    (hascending : Value.ascending s.stopWords = .ok s.stopWords) : read s.entries = s.check := by
  have hchange : standard.change s.entries = .ok s := by
    simp [change, entries, assign, Value.items, ok_bind, Except.map, hdistinct, hascending]
  rw [read, hchange]
  rfl

theorem criteria_ofCriteria (c : Criteria Float) : (ofCriteria c).criteria = c := by
  obtain ⟨_, _, maxDocFreq, _, _, _, _, _, _, _, _⟩ := c
  simp only [criteria, ofCriteria, Value.written_texts, StringSet.ofList_members]
  cases maxDocFreq <;> simp [Value.whole?, Value.holds]

theorem check_ofCriteria (hc : c.boostFactor.isNaN = false) :
    (ofCriteria c).check =
      match c.violations.head? with
      | none => .ok (ofCriteria c)
      | some v => .error (.outOfRange v) := by
  rw [check, checkRanges_ofCriteria hc, forM_refuse, Criteria.violations]
  split <;> rfl

/-- Criteria pass the check exactly if they are in range. Written out and read back they come out as
they were if they pass, and with the fault of the check if not, which is that of the first
violation. -/
theorem read_entries_ofCriteria (c : Criteria Float) (hc : c.boostFactor.isNaN = false) :
    let s := ofCriteria c
    ((∃ t, s.check = .ok t) ↔ c.InRange) ∧
      (∀ t, s.check = .ok t → read s.entries = .ok t ∧ t = s ∧ t.criteria = c) ∧
      ∀ f, s.check = .error f →
        read s.entries = .error f ∧ ∃ v ∈ c.violations.head?, f = .outOfRange v := by
  intro s
  have hread : read s.entries = s.check :=
    read_entries (Value.distinct_texts c.stopWords.nodup_members)
      (Value.ascending_texts c.stopWords.ascending)
  have hcheck := check_ofCriteria hc
  rw [hread, ← Criteria.violations_eq_nil_iff]
  cases hfirst : c.violations.head? with
  | none =>
    rw [hfirst] at hcheck
    have hnil : c.violations = [] := List.head?_eq_none_iff.1 hfirst
    refine ⟨⟨fun _ => hnil, fun _ => ⟨s, hcheck⟩⟩, fun t ht => ?_, fun f hf => ?_⟩
    · obtain rfl : s = t := Except.ok.inj (hcheck.symm.trans ht)
      exact ⟨ht, rfl, criteria_ofCriteria c⟩
    · cases hcheck.symm.trans hf
  | some v =>
    rw [hfirst] at hcheck
    have hne : c.violations ≠ [] := by
      intro hnil
      rw [hnil] at hfirst
      cases hfirst
    refine ⟨⟨?_, fun hnil => absurd hnil hne⟩, fun t ht => ?_, fun f hf => ?_⟩
    · rintro ⟨t, ht⟩
      cases hcheck.symm.trans ht
    · cases hcheck.symm.trans ht
    · exact ⟨hf, v, rfl, Except.error.inj (hf.symm.trans hcheck)⟩

/-- Criteria with a field named twice, and criteria with four settings out of range. -/
theorem read_entries_ofCriteria_mixed :
    let valid : Criteria Float :=
      { boostFactor := 2, fieldNames := ["b", "a", "b"], maxDocFreq := some 3, minWordLen := 4,
        maxWordLen := 4, stopWords := .ofList ["y", "x"] }
    let invalid : Criteria Float :=
      { boostFactor := -1, maxDocFreq := some (-2), minWordLen := -1, maxQueryTerms := 0 }
    valid.boostFactor.isNaN = false ∧ invalid.boostFactor.isNaN = false ∧
      (∃ t, read (ofCriteria valid).entries = .ok t ∧ t.criteria = valid) ∧
      ∃ f, read (ofCriteria invalid).entries = .error f ∧
        f.message = "min_word_len must be >= 0" := by
  intro valid invalid
  have hvalid : valid.boostFactor.isNaN = false := by decide
  have hinvalid : invalid.boostFactor.isNaN = false := by decide
  obtain ⟨hiff, hok, -⟩ := read_entries_ofCriteria valid hvalid
  obtain ⟨hiff', -, herror⟩ := read_entries_ofCriteria invalid hinvalid
  refine ⟨hvalid, hinvalid, ?_, ?_⟩
  · obtain ⟨t, ht⟩ := hiff.2 ⟨by decide, by decide, by decide, by decide, by decide, by decide,
      by decide, by decide, by decide⟩
    obtain ⟨hread, -, hcriteria⟩ := hok t ht
    exact ⟨t, hread, hcriteria⟩
  · cases hcheck : (ofCriteria invalid).check with
    | ok t => exact absurd (hiff'.1 ⟨t, hcheck⟩).minWordLen (by decide)
    | error f =>
      obtain ⟨hread, v, hv, rfl⟩ := herror f hcheck
      obtain rfl : Violation.negative .minWordLen = v := Option.some.inj hv
      exact ⟨_, hread, rfl⟩

end Settings
end TermMining
