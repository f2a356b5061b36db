import TermMining.Pattern.Expression
import TermMining.Text.CaseRuns

/-! What the runs of capitals say about characters, read off the intervals of code points that a run
moves. -/
namespace TermMining.Text

namespace CharSet

def includes : CharSet → Nat → Nat → Bool
  | [], _, _ => false
  | (l, h) :: rest, lo, hi => Nat.ble l lo && (Nat.ble hi h || includes rest lo hi)

def avoids (s : CharSet) (lo hi : Nat) : Bool :=
  s.all fun r => Nat.blt r.2 lo || Nat.blt hi r.1

theorem has_of_includes {s : CharSet} {lo hi n : Nat} (h : s.includes lo hi = true) (hlo : lo ≤ n)
    (hhi : n ≤ hi) : s.has n = true := by
  induction s with
  | nil => cases h
  | cons r rest ih =>
    obtain ⟨hfirst, hlast⟩ := (Bool.and_eq_true _ _).mp h
    rw [has, if_neg (Nat.not_lt.mpr (Nat.le_trans (Nat.le_of_ble_eq_true hfirst) hlo))]
    rcases (Bool.or_eq_true _ _).mp hlast with hlast | hrest
    · have hn : n ≤ r.2 := Nat.le_trans hhi (Nat.le_of_ble_eq_true hlast)
      simp [hn]
    · simp [ih hrest]

theorem has_eq_false_of_avoids {s : CharSet} {lo hi n : Nat} (h : s.avoids lo hi = true)
    (hlo : lo ≤ n) (hhi : n ≤ hi) : s.has n = false := by
  refine Bool.eq_false_iff.mpr fun hn => ?_
  obtain ⟨r, hr, hle, hge⟩ := exists_of_has hn
  have hapart := List.all_eq_true.mp h r hr
  simp only [Nat.blt_eq, Bool.or_eq_true] at hapart
  omega

end CharSet

namespace CaseRun

def low (r : CaseRun) : Nat := (r.first + r.shift).toNat

def high (r : CaseRun) : Nat := (r.last + r.shift).toNat

/-- The run lowers `c` to `d`. -/
def Takes (r : CaseRun) (c d : Char) : Prop :=
  r.covers c.toNat = true ∧ (d.toNat : Int) = c.toNat + r.shift

/-- What `r` lowers to is not lowered by `t`: it lies outside of `t` or between its strides. -/
def misses (r t : CaseRun) : Bool :=
  Nat.blt r.high t.first || Nat.blt t.last r.low ||
    (r.stride % t.stride == 0 || r.first == r.last) && !((r.low - t.first) % t.stride == 0)

theorem covers_iff {r : CaseRun} {n : Nat} :
    r.covers n = true ↔ r.first ≤ n ∧ n ≤ r.last ∧ (n - r.first) % r.stride = 0 := by
  simp [covers, and_assoc]

theorem exists_of_lower? {runs : List CaseRun} {n m : Nat} (h : lower? runs n = some m) :
    ∃ r ∈ runs, r.covers n = true ∧ m = (n + r.shift).toNat := by
  fun_induction lower? runs n with
  | case1 => cases h
  | case2 => cases h
  | case3 r rest n hlt hcovers => exact ⟨r, List.mem_cons_self, hcovers, (Option.some.inj h).symm⟩
  | case4 r rest n hlt hcovers ih =>
    obtain ⟨t, ht, hresult⟩ := ih h
    exact ⟨t, List.mem_cons_of_mem _ ht, hresult⟩

theorem lower?_eq_none {runs : List CaseRun} {n : Nat} (h : ∀ r ∈ runs, r.covers n = false) :
    lower? runs n = none := by
  cases hlower : lower? runs n with
  | none => rfl
  | some m =>
    obtain ⟨r, hr, hcovers, -⟩ := exists_of_lower? hlower
    simp [h r hr] at hcovers

theorem covers_eq_false_of_misses {r t : CaseRun} {n m : Nat} (h : r.misses t = true)
    (hfirst : 0 ≤ r.first + r.shift) (hn : r.covers n = true) (hm : (m : Int) = n + r.shift) :
    t.covers m = false := by
  refine Bool.eq_false_iff.mpr fun ht => ?_
  obtain ⟨hlo, hhi, hstride⟩ := covers_iff.mp hn
  obtain ⟨hlo', hhi', hstride'⟩ := covers_iff.mp ht
  have hlow : (r.low : Int) = r.first + r.shift := Int.toNat_of_nonneg hfirst
  have hhigh : (r.high : Int) = r.last + r.shift := Int.toNat_of_nonneg (by omega)
  simp only [misses, Nat.blt_eq, Bool.or_eq_true, Bool.and_eq_true, beq_iff_eq,
    Bool.not_eq_true', beq_eq_false_iff_ne] at h
  rcases h with (hout | hout) | ⟨hstrides, hbetween⟩
  · omega
  · omega
  · -- `m` is as far from the first of `r` as `n`, a multiple of the stride of `t`
    have hmoved : t.stride ∣ m - r.low := by
      have heq : m - r.low = n - r.first := by omega
      rw [heq]
      rcases hstrides with hdvd | hsingle
      · exact Nat.dvd_trans (Nat.dvd_of_mod_eq_zero hdvd) (Nat.dvd_of_mod_eq_zero hstride)
      · have hzero : n - r.first = 0 := by omega
        rw [hzero]
        exact Nat.dvd_zero _
    apply hbetween
    by_cases hle : t.first ≤ r.low
    · have hsum : m - t.first = (m - r.low) + (r.low - t.first) := by omega
      rw [hsum] at hstride'
      exact Nat.mod_eq_zero_of_dvd
        ((Nat.dvd_add_right hmoved).mp (Nat.dvd_of_mod_eq_zero hstride'))
    · have hzero : r.low - t.first = 0 := by omega
      rw [hzero, Nat.zero_mod]

/-- What is in a set that no run meets is not lowered. -/
theorem lower?_eq_none_of_has {runs : List CaseRun} {s : CharSet} {n : Nat}
    (h : ∀ r ∈ runs, s.avoids r.first r.last = true) (hn : s.has n = true) :
    lower? runs n = none := by
  refine lower?_eq_none fun r hr => Bool.eq_false_iff.mpr fun hcovers => ?_
  obtain ⟨hlo, hhi, -⟩ := covers_iff.mp hcovers
  simp [CharSet.has_eq_false_of_avoids (h r hr) hlo hhi] at hn

theorem misses_of_mem {r t : CaseRun} (hr : r ∈ caseRuns) (ht : t ∈ caseRuns) :
    r.misses t = true := by
  have hall : (caseRuns.all fun r => caseRuns.all r.misses) = true := by decide +kernel
  exact List.all_eq_true.mp (List.all_eq_true.mp hall r hr) t ht

/-- Nothing is lowered to the capital I with a dot, to the dot or to a surrogate. -/
theorem avoids_of_mem : ∀ r ∈ caseRuns, 0 ≤ (r.first : Int) + r.shift ∧ r.high < 0x110000 ∧
    CharSet.avoids [(0x130, 0x130), (0x307, 0x307), (0xd800, 0xdfff)] r.low r.high = true := by
  decide +kernel

/-- Word characters are lowered to letters and numerals, none of them standing alone; no circled
letter is a word character. -/
theorem words_of_mem : ∀ r ∈ caseRuns,
    ((letterRanges.includes r.low r.high || numeralRanges.includes r.low r.high) = true ∧
      standaloneRanges.avoids r.low r.high = true) ∨
    (letterRanges.avoids r.first r.last && numeralRanges.avoids r.first r.last &&
      digitRanges.avoids r.first r.last && Nat.blt 95 r.first) = true := by
  decide +kernel

theorem digits_of_mem : ∀ r ∈ caseRuns,
    (digitRanges.avoids r.first r.last && standaloneRanges.avoids r.first r.last) = true := by
  decide +kernel

variable {r : CaseRun} {c d : Char}

theorem exists_takes_of_lower? {m : Nat} (h : lower? caseRuns c.toNat = some m) :
    ∃ r ∈ caseRuns, r.Takes c (Char.ofNat m) := by
  obtain ⟨r, hr, hcovers, rfl⟩ := exists_of_lower? h
  obtain ⟨hfirst, hhigh, havoids⟩ := avoids_of_mem r hr
  obtain ⟨hlo, hhi, -⟩ := covers_iff.mp hcovers
  have hvalid : (c.toNat + r.shift).toNat.isValidChar := by
    have hsurrogate := List.all_eq_true.mp havoids (0xd800, 0xdfff) (by simp)
    simp only [Nat.blt_eq, Bool.or_eq_true, low, high] at hsurrogate hhigh
    unfold Nat.isValidChar
    omega
  refine ⟨r, hr, hcovers, ?_⟩
  have htoNat : (Char.ofNat (c.toNat + r.shift).toNat).toNat = (c.toNat + r.shift).toNat := by
    rw [Char.ofNat, dif_pos hvalid]
    rfl
  rw [htoNat]
  omega

theorem Takes.bounds (hr : r ∈ caseRuns) (h : r.Takes c d) :
    r.low ≤ d.toNat ∧ d.toNat ≤ r.high := by
  obtain ⟨hcovers, hd⟩ := h
  obtain ⟨hlo, hhi, -⟩ := covers_iff.mp hcovers
  have hfirst := (avoids_of_mem r hr).1
  unfold low high
  omega

theorem Takes.lower?_eq_none (hr : r ∈ caseRuns) (h : r.Takes c d) :
    lower? caseRuns d.toNat = none :=
  CaseRun.lower?_eq_none fun _ ht =>
    covers_eq_false_of_misses (misses_of_mem hr ht) (avoids_of_mem r hr).1 h.1 h.2

theorem Takes.ne (hr : r ∈ caseRuns) (h : r.Takes c d) : d ≠ 'İ' ∧ d ≠ '\u0307' := by
  obtain ⟨hlow, hhigh⟩ := h.bounds hr
  have hout := CharSet.has_eq_false_of_avoids (avoids_of_mem r hr).2.2 hlow hhigh
  constructor <;> intro hd <;> rw [hd] at hout <;> revert hout <;> decide

theorem Takes.isSpacedWord (hr : r ∈ caseRuns) (h : r.Takes c d)
    (hc : Pattern.isSpacedWord c = true) : Pattern.isSpacedWord d = true := by
  obtain ⟨hlow, hhigh⟩ := h.bounds hr
  obtain ⟨hlo, hhi, -⟩ := covers_iff.mp h.1
  rcases words_of_mem r hr with ⟨hwords, halone⟩ | hnone
  · have hstandalone : isStandalone d = false := CharSet.has_eq_false_of_avoids halone hlow hhigh
    have hword : isLetter d = true ∨ isNumeral d = true :=
      ((Bool.or_eq_true _ _).mp hwords).imp (CharSet.has_of_includes · hlow hhigh)
        (CharSet.has_of_includes · hlow hhigh)
    rcases hword with hword | hword <;> simp [Pattern.isSpacedWord, isWord, hword, hstandalone]
  · simp only [Bool.and_eq_true, Nat.blt_eq] at hnone
    obtain ⟨⟨⟨hletter, hnumeral⟩, hdigit⟩, hunderscore⟩ := hnone
    have hletter : isLetter c = false := CharSet.has_eq_false_of_avoids hletter hlo hhi
    have hnumeral : isNumeral c = false := CharSet.has_eq_false_of_avoids hnumeral hlo hhi
    have hdigit : isDigit c = false := CharSet.has_eq_false_of_avoids hdigit hlo hhi
    have hne : c ≠ '_' := by
      intro heq
      rw [heq] at hlo
      have hcode : '_'.toNat = 95 := rfl
      omega
    simp [Pattern.isSpacedWord, isWord, hletter, hnumeral, hdigit, hne] at hc

end CaseRun

end TermMining.Text
