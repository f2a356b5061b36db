import TermMining.Proofs.Text.CaseRuns
import TermMining.Proofs.Tokenizer

/-! Ideographs and kana in the standard tokens. Those of the basic blocks stand alone; the others
are letters like any and join the word characters beside them. -/
namespace TermMining

namespace Text

/-- Unified and compatibility ideographs, extensions included. -/
def ideographRanges : CharSet :=
  [(0x3400, 0x4dbf), (0x4e00, 0x9fff), (0xf900, 0xfa6d), (0xfa70, 0xfad9), (0x20000, 0x2a6df),
   (0x2a700, 0x2b738), (0x2b740, 0x2b81d), (0x2b820, 0x2cea1), (0x2ceb0, 0x2ebe0),
   (0x2f800, 0x2fa1d), (0x30000, 0x3134a)]

/-- The letters of hiragana and katakana, small and half-width ones included. -/
def kanaRanges : CharSet :=
  [(0x3041, 0x3096), (0x309d, 0x309f), (0x30a1, 0x30fa), (0x30fc, 0x30ff), (0x31f0, 0x31ff),
   (0xff66, 0xff9f), (0x1aff0, 0x1aff3), (0x1aff5, 0x1affb), (0x1affd, 0x1affe),
   (0x1b000, 0x1b122), (0x1b150, 0x1b152), (0x1b164, 0x1b167)]

def isIdeographOrKana (c : Char) : Bool := ideographRanges.contains c || kanaRanges.contains c

theorem ranges_cases : ∀ r ∈ ideographRanges ++ kanaRanges,
    standaloneRanges.includes r.1 r.2 = true ∨
      (letterRanges.includes r.1 r.2 && digitRanges.avoids r.1 r.2) = true := by
  decide +kernel

theorem digits_avoid_standalone :
    ∀ r ∈ standaloneRanges, digitRanges.avoids r.1 r.2 = true := by
  decide +kernel

variable {c : Char}

theorem isDigit_eq_false_of_isStandalone (h : isStandalone c = true) : isDigit c = false := by
  obtain ⟨r, hr, hlo, hhi⟩ := CharSet.exists_of_has h
  exact CharSet.has_eq_false_of_avoids (digits_avoid_standalone r hr) hlo hhi

/-- What does not stand alone is a letter as those of scripts written with spaces. -/
theorem isSpacedWord_of_isIdeographOrKana (h : isIdeographOrKana c = true)
    (halone : isStandalone c = false) :
    Pattern.isSpacedWord c = true ∧ isDigit c = false := by
  have hrange : ∃ r ∈ ideographRanges ++ kanaRanges, r.1 ≤ c.toNat ∧ c.toNat ≤ r.2 := by
    rcases (Bool.or_eq_true _ _).mp h with h | h
    · obtain ⟨r, hr, hbounds⟩ := CharSet.exists_of_has h
      exact ⟨r, List.mem_append_left _ hr, hbounds⟩
    · obtain ⟨r, hr, hbounds⟩ := CharSet.exists_of_has h
      exact ⟨r, List.mem_append_right _ hr, hbounds⟩
  obtain ⟨r, hr, hlo, hhi⟩ := hrange
  rcases ranges_cases r hr with hin | hin
  · have hno : isStandalone c = true := CharSet.has_of_includes hin hlo hhi
    rw [halone] at hno
    cases hno
  · obtain ⟨hletter, hdigit⟩ := (Bool.and_eq_true _ _).mp hin
    have hletter : isLetter c = true := CharSet.has_of_includes hletter hlo hhi
    refine ⟨?_, CharSet.has_eq_false_of_avoids hdigit hlo hhi⟩
    simp [Pattern.isSpacedWord, isWord, hletter, halone]

end Text

namespace Pattern.WordKind

variable {k : WordKind} {s : List Char} {c : Char}

theorem Forms.eq_standalone_of_mem (h : k.Forms s) (hc : c ∈ s)
    (halone : Text.isStandalone c = true) : k = standalone := by
  cases k with
  | standalone => rfl
  | number =>
    obtain ⟨n, -, hs⟩ := h
    rcases hs.class_or_sep c hc with hdigit | hpoint
    · simp [Text.isDigit_eq_false_of_isStandalone halone] at hdigit
    · simp [(isPoint_disjoint hpoint).1] at halone
  | contraction =>
    obtain ⟨n, hs⟩ := h
    rcases hs.class_or_sep c hc with hspaced | hapostrophe
    · simp [isStandalone_eq_false_of_isSpacedWord hspaced] at halone
    · simp [isStandalone_eq_false_of_isApostrophe hapostrophe] at halone

theorem Forms.eq_contraction_of_mem (h : k.Forms s) (hc : c ∈ s) (hspaced : isSpacedWord c = true)
    (hdigit : Text.isDigit c = false) : k = contraction := by
  cases k with
  | standalone =>
    obtain ⟨d, rfl, halone⟩ := h
    obtain rfl := List.mem_singleton.1 hc
    simp [isStandalone_eq_false_of_isSpacedWord hspaced] at halone
  | number =>
    obtain ⟨n, -, hs⟩ := h
    rcases hs.class_or_sep c hc with hd | hpoint
    · simp [hdigit] at hd
    · simp [(isPoint_disjoint hpoint).2.1] at hspaced
  | contraction => rfl

end Pattern.WordKind

namespace Token

/-- The character at the place is a token, and no other token has a part of it. -/
def StandsAlone (ts : List Token) (i : Nat) (c : Char) : Prop :=
  ∃ t ∈ ts, t.text.toList = [c] ∧ t.start = i ∧ t.stop = i + 1 ∧ ∀ u ∈ ts, u.Covers i → u = t

/-- The characters at the place and behind it are in one token. -/
def Joins (ts : List Token) (i : Nat) : Prop := ∃ t ∈ ts, t.Covers i ∧ t.Covers (i + 1)

theorem StandsAlone.not_joins {ts : List Token} {i : Nat} {c : Char} (h : StandsAlone ts i c) :
    ¬Joins ts i := by
  rintro ⟨u, hu, hui, hui'⟩
  obtain ⟨t, -, -, -, hstop, hall⟩ := h
  obtain rfl := hall u hu hui
  have hlt := hui'.2
  omega

theorem StandsIn.mem_of_covers {s before after : List Char} {t : Token}
    (h : t.StandsIn s before after) {i : Nat} {c : Char} (hi : t.Covers i) (hc : s[i]? = some c) :
    c ∈ t.text.toList := by
  have hstart := h.start_eq
  have hstop := h.stop_eq
  obtain ⟨hle, hlt⟩ := hi
  have hbefore : before.length ≤ i := by omega
  rw [h.text_eq, List.getElem?_append_right hbefore, List.getElem?_append_left (by omega)] at hc
  exact List.mem_of_getElem? hc

end Token

open Pattern Token

variable {text : String} {i : Nat} {c d : Char}

/-- A character that tokens are made of is in a token of some kind. -/
theorem exists_kind_covers (hc : text.toList[i]? = some c) (htok : isTokenizable c = true) :
    ∃ t ∈ (Tokenizer.standard 0).tokens text, t.Covers i ∧ c ∈ t.text.toList ∧
      ∃ before after, t.StandsIn text.toList before after ∧
        ∃ k : WordKind, k.Forms t.text.toList ∧ k.EndsBefore after := by
  obtain ⟨hlt, rfl⟩ := List.getElem?_eq_some_iff.1 hc
  have hs : text.toList = text.toList.take i ++ text.toList[i] :: text.toList.drop (i + 1) := by
    rw [List.getElem_cons_drop, List.take_append_drop]
  obtain ⟨t, ht, hcovers⟩ := exists_covers_standard hs htok
  rw [List.length_take_of_le hlt.le] at hcovers
  obtain ⟨before, after, hstands, hkind⟩ := exists_kind_of_mem_standard ht
  exact ⟨t, ht, hcovers, hstands.mem_of_covers hcovers hc, before, after, hstands, hkind⟩

theorem standsAlone_of_isStandalone (hc : text.toList[i]? = some c)
    (halone : Text.isStandalone c = true) :
    StandsAlone ((Tokenizer.standard 0).tokens text) i c := by
  obtain ⟨t, ht, hcovers, hmem, before, after, hstands, k, hforms, -⟩ :=
    exists_kind_covers hc (isTokenizable_of_isStandalone halone)
  obtain rfl := hforms.eq_standalone_of_mem hmem halone
  obtain ⟨d, htext, -⟩ := hforms
  rw [htext] at hmem
  obtain rfl := List.mem_singleton.1 hmem
  have hstart := hstands.start_eq
  have hstop := hstands.stop_eq
  rw [htext, List.length_singleton] at hstop
  obtain ⟨hle, hlt⟩ := hcovers
  exact ⟨t, ht, htext, by omega, by omega,
    fun u hu hui => Tokenizer.eq_of_covers hu ht hui ⟨hle, hlt⟩⟩

/-- Word characters side by side are in one token if the first of them is no digit. -/
theorem joins_of_isSpacedWord (hc : text.toList[i]? = some c) (hd : text.toList[i + 1]? = some d)
    (hspaced : isSpacedWord c = true) (hdigit : Text.isDigit c = false)
    (hspaced' : isSpacedWord d = true) : Joins ((Tokenizer.standard 0).tokens text) i := by
  obtain ⟨t, ht, hcovers, hmem, before, after, hstands, k, hforms, hends⟩ :=
    exists_kind_covers hc (isTokenizable_of_isSpacedWord hspaced)
  obtain rfl := hforms.eq_contraction_of_mem hmem hspaced hdigit
  refine ⟨t, ht, hcovers, ?_⟩
  -- a token that ended between the two would have a word character right behind it
  have hstop : t.stop ≠ (i + 1 : Nat) := by
    intro hstop
    have hdrop := hstands.drop_stop
    rw [hstop, Int.toNat_natCast] at hdrop
    obtain ⟨hlt, rfl⟩ := List.getElem?_eq_some_iff.1 hd
    exact hends.1 ⟨_, _, hdrop ▸ List.drop_eq_getElem_cons hlt, hspaced'⟩
  obtain ⟨hle, hlt⟩ := hcovers
  exact ⟨by omega, by omega⟩

/-- Written twice, an ideograph or kana of no basic block does not stand alone. -/
theorem not_standsAlone_twice (htext : text.toList = [c, c])
    (hc : Text.isIdeographOrKana c = true) (hno : Text.isStandalone c = false) :
    ¬StandsAlone ((Tokenizer.standard 0).tokens text) 0 c := by
  obtain ⟨hspaced, hdigit⟩ := Text.isSpacedWord_of_isIdeographOrKana hc hno
  have hfirst : text.toList[0]? = some c := by rw [htext]; rfl
  have hsecond : text.toList[0 + 1]? = some c := by rw [htext]; rfl
  exact fun h => h.not_joins (joins_of_isSpacedWord hfirst hsecond hspaced hdigit hspaced)

/-- An ideograph or kana stands alone in every text exactly if it is of the basic blocks. Any other
is in one token with a word character behind it, and with one in front of it that is no digit. -/
theorem standsAlone_standard_iff (c : Char) (hc : Text.isIdeographOrKana c = true) :
    ((∀ (text : String) (i : Nat), text.toList[i]? = some c →
      StandsAlone ((Tokenizer.standard 0).tokens text) i c) ↔ Text.isStandalone c = true) ∧
    (Text.isStandalone c = false → ∀ (text : String) (i : Nat) (d : Char), isSpacedWord d = true →
      (text.toList[i]? = some c → text.toList[i + 1]? = some d →
        Joins ((Tokenizer.standard 0).tokens text) i) ∧
      (Text.isDigit d = false → text.toList[i]? = some d → text.toList[i + 1]? = some c →
        Joins ((Tokenizer.standard 0).tokens text) i)) := by
  constructor
  · constructor
    · intro h
      by_contra hno
      have htwice : (String.ofList [c, c]).toList = [c, c] := String.toList_ofList
      exact not_standsAlone_twice htwice hc (Bool.eq_false_iff.2 hno) (h _ 0 (by rw [htwice]; rfl))
    · exact fun halone text i hi => standsAlone_of_isStandalone hi halone
  · intro hno text i d hspaced'
    obtain ⟨hspaced, hdigit⟩ := Text.isSpacedWord_of_isIdeographOrKana hc hno
    constructor
    · exact fun hi hd => joins_of_isSpacedWord hi hd hspaced hdigit hspaced'
    · exact fun hdigit' hd hi => joins_of_isSpacedWord hd hi hspaced' hdigit' hspaced

/-- An ideograph of an extension in front of a Latin letter. -/
theorem standsAlone_standard_iff_extension :
    Text.isIdeographOrKana '\u3400' = true ∧ Text.isStandalone '\u3400' = false ∧
      Joins ((Tokenizer.standard 0).tokens "\u3400a") 0 := by
  refine ⟨by decide, by decide, ?_⟩
  exact ((standsAlone_standard_iff '\u3400' (by decide)).2 (by decide) "\u3400a" 0 'a'
    (by decide)).1 rfl rfl

/-- Neither do all ideographs stand alone nor all kana, as an extension and the half-width forms
show. -/
theorem not_forall_standsAlone_standard :
    (¬∀ (text : String) (i : Nat) (c : Char), text.toList[i]? = some c →
      Text.ideographRanges.contains c = true →
        StandsAlone ((Tokenizer.standard 0).tokens text) i c) ∧
    ¬∀ (text : String) (i : Nat) (c : Char), text.toList[i]? = some c →
      Text.kanaRanges.contains c = true →
        StandsAlone ((Tokenizer.standard 0).tokens text) i c := by
  constructor
  · intro h
    have htwice : "\u3400\u3400".toList = ['\u3400', '\u3400'] := rfl
    exact not_standsAlone_twice htwice (by decide) (by decide)
      (h _ 0 '\u3400' rfl (by decide))
  · intro h
    have htwice : "\uff76\uff76".toList = ['\uff76', '\uff76'] := rfl
    exact not_standsAlone_twice htwice (by decide) (by decide)
      (h _ 0 '\uff76' rfl (by decide))

end TermMining
