import TermMining.Proofs.Tally.Counting

/-! The allowance of tokens that texts share. Each text is charged the tokens it has, as far as the
allowance goes, and hands on what is left. -/
namespace TermMining.Tally

variable {ω : Type} (c : Criteria ω) (a : Analyzer) (field : String)

/-- A text that was read: what was left of the allowance before, and the tokens charged for it. -/
structure Charge where
  text : String
  limit : Int
  tokens : Int

/-- A charge is for the tokens that the text has, as far as the limit goes. -/
structure Charge.IsExact (e : Charge) : Prop where
  limit_pos : 0 < e.limit
  left_nonneg : 0 ≤ e.limit - e.tokens
  tokens_eq : e.tokens = min (max 0 e.limit) (a.fieldTerms field e.text).length

/-- Texts read one after the other: the charges made, and what they leave of the allowance. Nothing
is read any more once the allowance is used up. -/
inductive Spends : Tally → Int → List String → List Charge → Int → Tally → Prop
  | done (t : Tally) (allowance : Int) : Spends t allowance [] [] allowance t
  | usedUp {t : Tally} {allowance : Int} {texts : List String} (h : allowance ≤ 0) :
      Spends t allowance texts [] allowance t
  | read {t u v : Tally} {allowance n left : Int} {text : String} {texts : List String}
      {charges : List Charge} (h : 0 < allowance)
      (hadd : addText c (some a) t field text (some allowance) = .ok (n, u))
      (hrest : Spends u (allowance - n) texts charges left v) :
      Spends t allowance (text :: texts) (⟨text, allowance, n⟩ :: charges) left v

theorem exists_spends (t : Tally) (allowance : Int) (texts : List String) :
    ∃ charges left,
      Spends c a field t allowance texts charges left (addEach c a field t allowance texts) := by
  induction texts generalizing t allowance with
  | nil => exact ⟨[], allowance, .done t allowance⟩
  | cons text texts ih =>
    rw [addEach]
    split
    · next h => exact ⟨[], allowance, .usedUp h⟩
    · next h =>
      let r := t.addTerms c field (a.fieldTerms field text) allowance
      obtain ⟨charges, left, hrest⟩ := ih r.2 (allowance - r.1)
      exact ⟨⟨text, allowance, r.1⟩ :: charges, left, .read (Int.not_le.1 h) rfl hrest⟩

theorem addTerms_fst (t : Tally) (terms : List String) (limit : Int) :
    (t.addTerms c field terms limit).1 = min (max 0 limit) terms.length := by
  have hlen : (terms.take limit.toNat).length = min limit.toNat terms.length := List.length_take
  rw [addTerms_eq]
  dsimp only
  omega

/-- `u` is `t` with words counted in, noise apart. -/
def CountsIn (t : Tally) (words : List String) (u : Tally) : Prop :=
  ∀ term, u.count? term =
    if c.isNoise term.text = false ∧ term.field = field ∧ term.text ∈ words then
      some ((t.count? term).getD 0 + words.count term.text)
    else t.count? term

theorem countsIn_addTerms (t : Tally) (terms : List String) (limit : Int) :
    CountsIn c field t (terms.take limit.toNat) (t.addTerms c field terms limit).2 := by
  intro term
  rw [addTerms_eq, count?_foldl_words, count?_openField]

variable {c a field}

theorem Charge.isExact_addText {t u : Tally} {text : String} {allowance n : Int}
    (h : 0 < allowance) (hadd : addText c (some a) t field text (some allowance) = .ok (n, u)) :
    Charge.IsExact a field ⟨text, allowance, n⟩ := by
  have hn : n = min (max 0 allowance) (a.fieldTerms field text).length := by
    rw [← addTerms_fst c field t]
    exact (congrArg Prod.fst (Except.ok.inj hadd)).symm
  exact ⟨h, by dsimp only; omega, hn⟩

namespace Spends

variable {t u : Tally} {allowance left : Int} {texts : List String} {charges : List Charge}

theorem isExact (h : Spends c a field t allowance texts charges left u) :
    ∀ e ∈ charges, e.IsExact a field := by
  induction h with
  | done => simp
  | usedUp => simp
  | read hpos hadd _ ih => exact List.forall_mem_cons.2 ⟨Charge.isExact_addText hpos hadd, ih⟩

/-- The texts are read in order, from the front. -/
theorem map_text_prefix (h : Spends c a field t allowance texts charges left u) :
    charges.map Charge.text <+: texts := by
  induction h with
  | done => exact List.prefix_refl []
  | usedUp => exact List.nil_prefix
  | read _ _ _ ih => exact List.cons_prefix_cons.2 ⟨rfl, ih⟩

/-- An allowance is left as far as the tokens of all texts do not use it up. One that is negative
from the start is not touched. -/
theorem left_eq (h : Spends c a field t allowance texts charges left u) :
    left = max (min allowance 0)
      (allowance - (texts.flatMap (a.fieldTerms field)).length) := by
  induction h with
  | done => simp
  | usedUp hle => omega
  | read hpos hadd _ ih =>
    have hn := (Charge.isExact_addText hpos hadd).tokens_eq
    dsimp only at hn
    rw [ih, List.flatMap_cons, List.length_append]
    omega

end Spends

variable (c a field)

theorem keys_ofWords (words : List String) : (ofWords c field words).keys = [field] := by
  have hkeys := keys_foldl_count c field (words.map fun word => (word, 1))
    (contains_openField field .empty)
  rw [List.foldl_map] at hkeys
  exact hkeys

/-- Texts are counted by the first tokens of their concatenation, as many as are read: the tally has
the one field, and in it the terms that occur among these tokens and are no noise, each with its
number of occurrences. The texts are read from the front and share the allowance by exact charges,
none of which takes more than is left. Wherever a text is counted, the tokens charged are those that
it has, as far as the limit goes, and these are counted. -/
theorem ofTexts_spends (texts : List String) :
    let tokens := texts.flatMap (a.fieldTerms field)
    let read := tokens.take c.maxTokens.toNat
    (∃ t charges left, ofTexts c (some a) field texts = .ok t ∧
      t.keys = [field] ∧
      (∀ term, t.count? term =
        if c.isNoise term.text = false ∧ term.field = field ∧ term.text ∈ read then
          some (read.count term.text : Int)
        else none) ∧
      Spends c a field (openField .empty field) c.maxTokens texts charges left t ∧
      charges.map Charge.text <+: texts ∧ (∀ e ∈ charges, e.IsExact a field) ∧
      left = max (min c.maxTokens 0) (c.maxTokens - tokens.length)) ∧
    ∀ (t : Tally) (text : String) (limit : Option Int),
      let n := min (max 0 (limit.getD c.maxTokens)) (a.fieldTerms field text).length
      ∃ u, addText c (some a) t field text limit = .ok (n, u) ∧
        CountsIn c field t ((a.fieldTerms field text).take n.toNat) u := by
  intro tokens read
  constructor
  · have htally := ofTexts_eq_ofWords c field a texts
    obtain ⟨charges, left, hspends⟩ :=
      exists_spends c a field (openField .empty field) c.maxTokens texts
    have hwords : addEach c a field (openField .empty field) c.maxTokens texts =
        ofWords c field read := Except.ok.inj htally
    rw [hwords] at hspends
    exact ⟨_, charges, left, htally, keys_ofWords c field read, count?_ofWords c field read,
      hspends, hspends.map_text_prefix, hspends.isExact, hspends.left_eq⟩
  · intro t text limit n
    have hn := addTerms_fst c field t (a.fieldTerms field text) (limit.getD c.maxTokens)
    have htake : (a.fieldTerms field text).take n.toNat =
        (a.fieldTerms field text).take (limit.getD c.maxTokens).toNat := by
      rw [List.take_eq_take_iff]
      omega
    refine ⟨_, congrArg Except.ok (Prod.ext hn rfl), ?_⟩
    rw [htake]
    exact countsIn_addTerms c field t _ _

end TermMining.Tally
