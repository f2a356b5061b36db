import TermMining.Proofs.Query.Tree
import TermMining.Query.Text

/-! What the text of a query shows. Of a group without a boost there is nothing to see but its mark,
in front of its first member; all else can be told from the text. -/
namespace TermMining

/-- A stretch of text between two blanks of the same depth. Boosts are as written. -/
inductive Phrase where
  | term (t : Term) (boost : String)
  | group (members : List Phrase) (boost : String)
  | must (p : Phrase)
  | mustNot (p : Phrase)

/-- Puts the mark of a clause in front of a phrase. -/
def Occur.markOn : Occur → Phrase → Phrase
  | must => .must
  | should => id
  | mustNot => .mustNot

namespace Phrase

mutual

def chars : Phrase → List Char
  | .term t boost => t.field.toList ++ ':' :: (t.text.toList ++ boost.toList)
  | .group members boost => '(' :: ((spaced members).tail ++ ')' :: boost.toList)
  | .must p => '+' :: p.chars
  | .mustNot p => '-' :: p.chars

/-- Phrases in a row, with a blank in front of each. -/
def spaced : List Phrase → List Char
  | [] => []
  | p :: rest => ' ' :: (p.chars ++ spaced rest)

end

theorem spaced_append (ps rest : List Phrase) : spaced (ps ++ rest) = spaced ps ++ spaced rest := by
  induction ps with
  | nil => rfl
  | cons p ps ih => simp [spaced, ih]

theorem chars_markOn (occur : Occur) (p : Phrase) :
    (occur.markOn p).chars = occur.mark.toList ++ p.chars := by
  cases occur with
  | must => simp [Occur.markOn, Occur.mark, chars]
  | should => simp [Occur.markOn, Occur.mark]
  | mustNot => simp [Occur.markOn, Occur.mark, chars]

/-- Characters that tell the parts of a text from one another. -/
def isSign (c : Char) : Bool := c ∈ [' ', '+', '-', ':', '^', '(', ')']

/-- Nothing, or something that begins like a boost and ends where the phrase ends. -/
def IsBoost (s : String) : Prop :=
  (∀ c ∈ s.toList.head?, c = '^') ∧ ∀ c ∈ s.toList, c ≠ ' ' ∧ c ≠ ')'

/-- Names without signs, groups that are not empty, and nothing but boosts for boosts. -/
inductive IsClear : Phrase → Prop where
  | term {t : Term} {boost : String} (hfield : ∀ c ∈ t.field.toList, isSign c = false)
      (htext : ∀ c ∈ t.text.toList, isSign c = false) (hboost : IsBoost boost) :
      IsClear (.term t boost)
  | group {members : List Phrase} {boost : String} (hne : members ≠ [])
      (hmembers : ∀ p ∈ members, IsClear p) (hboost : IsBoost boost) :
      IsClear (.group members boost)
  | must {p : Phrase} (h : IsClear p) : IsClear (.must p)
  | mustNot {p : Phrase} (h : IsClear p) : IsClear (.mustNot p)

/-- What can stand behind a phrase. -/
def Ends (s : List Char) : Prop := ∀ c ∈ s.head?, c = ' ' ∨ c = ')'

theorem ends_spaced_append {ps : List Phrase} {s : List Char} (hs : Ends s) :
    Ends (spaced ps ++ s) := by
  cases ps with
  | nil => exact hs
  | cons p ps =>
    intro c hc
    exact Or.inl (Option.some.inj hc).symm

/-- Two runs of a class of characters are told from what comes behind them. -/
theorem append_inj_of_run {P : Char → Prop} {a b s t : List Char} (ha : ∀ c ∈ a, P c)
    (hb : ∀ c ∈ b, P c) (hs : ∀ c ∈ s.head?, ¬P c) (ht : ∀ c ∈ t.head?, ¬P c)
    (h : a ++ s = b ++ t) : a = b ∧ s = t := by
  induction a generalizing b with
  | nil =>
    cases b with
    | nil => exact ⟨rfl, h⟩
    | cons y b =>
      have hhead : s.head? = some y := congrArg List.head? h
      exact absurd (hb y List.mem_cons_self) (hs y hhead)
  | cons x a ih =>
    cases b with
    | nil =>
      have hhead : t.head? = some x := (congrArg List.head? h).symm
      exact absurd (ha x List.mem_cons_self) (ht x hhead)
    | cons y b =>
      obtain ⟨rfl, hrest⟩ := List.cons.inj h
      obtain ⟨rfl, rfl⟩ := ih (fun c hc => ha c (List.mem_cons_of_mem _ hc))
        (fun c hc => hb c (List.mem_cons_of_mem _ hc)) hrest
      exact ⟨rfl, rfl⟩

variable {s s' : List Char}

theorem boost_append_inj {b b' : String} (hb : IsBoost b) (hb' : IsBoost b') (hs : Ends s)
    (hs' : Ends s') (h : b.toList ++ s = b'.toList ++ s') : b = b' ∧ s = s' := by
  have hends {r : List Char} (hr : Ends r) : ∀ c ∈ r.head?, ¬(c ≠ ' ' ∧ c ≠ ')') := by
    intro c hc hne
    rcases hr c hc with hblank | hclose
    · exact hne.1 hblank
    · exact hne.2 hclose
  obtain ⟨hboost, hrest⟩ := append_inj_of_run hb.2 hb'.2 (hends hs) (hends hs') h
  exact ⟨String.toList_inj.1 hboost, hrest⟩

theorem term_append_inj {t t' : Term} {b b' : String} (h : IsClear (.term t b))
    (h' : IsClear (.term t' b')) (hs : Ends s) (hs' : Ends s')
    (heq : (Phrase.term t b).chars ++ s = (Phrase.term t' b').chars ++ s') :
    t = t' ∧ b = b' ∧ s = s' := by
  cases h with | term hfield htext hboost
  cases h' with | term hfield' htext' hboost'
  have hend {b : String} {r : List Char} (hb : IsBoost b) (hr : Ends r) :
      ∀ c ∈ (b.toList ++ r).head?, ¬isSign c = false := by
    intro c hc
    cases hchars : b.toList with
    | nil =>
      rw [hchars] at hc
      rcases hr c hc with rfl | rfl <;> decide
    | cons x rest =>
      have hx := hb.1 x (by rw [hchars]; rfl)
      rw [hchars, hx] at hc
      obtain rfl := Option.some.inj hc
      decide
  simp only [chars, List.append_assoc, List.cons_append] at heq
  have hcolon (r : List Char) : ∀ c ∈ (':' :: r).head?, ¬isSign c = false := by
    intro c hc
    obtain rfl := Option.some.inj hc
    decide
  obtain ⟨hf, heq⟩ := append_inj_of_run hfield hfield' (hcolon _) (hcolon _) heq
  obtain ⟨ht, heq⟩ := append_inj_of_run htext htext' (hend hboost hs) (hend hboost' hs')
    (List.cons.inj heq).2
  obtain ⟨hb, hrest⟩ := boost_append_inj hboost hboost' hs hs' heq
  obtain ⟨field, text⟩ := t
  obtain rfl : field = t'.field := String.toList_inj.1 hf
  obtain rfl : text = t'.text := String.toList_inj.1 ht
  exact ⟨rfl, hb, hrest⟩

/-- What a phrase begins with. A term begins with a character of its name, or with the colon if that
is empty. -/
def sign : Phrase → Option Char
  | .term _ _ => none
  | .group _ _ => some '('
  | .must _ => some '+'
  | .mustNot _ => some '-'

theorem sign_eq_filter_head? {p : Phrase} (hp : p.IsClear) (s : List Char) :
    p.sign = (p.chars ++ s).head?.filter (· ∈ ['(', '+', '-']) := by
  cases hp with
  | @term t b hfield htext hboost =>
    rw [sign, chars]
    cases hchars : t.field.toList with
    | nil => rfl
    | cons c rest =>
      have hc := hfield c (by rw [hchars]; exact List.mem_cons_self)
      have hnot : c ∉ ['(', '+', '-'] := by
        intro hmem
        simp only [List.mem_cons, List.not_mem_nil, or_false] at hmem
        rcases hmem with rfl | rfl | rfl <;> cases hc
      exact (Option.filter_some_neg (by simpa using hnot)).symm
  | group => rfl
  | must => rfl
  | mustNot => rfl

theorem sign_eq_of_append_eq {p q : Phrase} (hp : p.IsClear) (hq : q.IsClear)
    (h : p.chars ++ s = q.chars ++ s') : p.sign = q.sign := by
  rw [sign_eq_filter_head? hp s, h, ← sign_eq_filter_head? hq s']

/-- A phrase that can be told from any other one, and from what comes behind it. -/
def IsTold (p : Phrase) : Prop :=
  ∀ ⦃q : Phrase⦄ ⦃s s' : List Char⦄, q.IsClear → Ends s → Ends s' →
    p.chars ++ s = q.chars ++ s' → p = q ∧ s = s'

theorem spaced_append_inj {ps qs : List Phrase} (hps : ∀ p ∈ ps, p.IsTold)
    (hqs : ∀ q ∈ qs, q.IsClear) (hs : ∀ c ∈ s.head?, c = ')') (hs' : ∀ c ∈ s'.head?, c = ')')
    (h : spaced ps ++ s = spaced qs ++ s') : ps = qs ∧ s = s' := by
  have hblank (r : List Char) (hr : ∀ c ∈ r.head?, c = ')') (rest : List Char) :
      r ≠ ' ' :: rest := by
    rintro rfl
    exact absurd (hr ' ' rfl) (by decide)
  induction ps generalizing qs with
  | nil =>
    cases qs with
    | nil => exact ⟨rfl, h⟩
    | cons q qs => exact absurd h (hblank s hs _)
  | cons p ps ih =>
    cases qs with
    | nil => exact absurd h.symm (hblank s' hs' _)
    | cons q qs =>
      obtain ⟨hp, hlater⟩ := List.forall_mem_cons.1 hps
      obtain ⟨hq, hlater'⟩ := List.forall_mem_cons.1 hqs
      simp only [spaced, List.cons_append, List.append_assoc] at h
      obtain ⟨rfl, hrest⟩ := hp hq (ends_spaced_append fun c hc => Or.inr (hs c hc))
        (ends_spaced_append fun c hc => Or.inr (hs' c hc)) (List.cons.inj h).2
      obtain ⟨rfl, rfl⟩ := ih hlater hlater' hrest
      exact ⟨rfl, rfl⟩

-- By what a phrase begins with only phrases of one form are left to compare.
theorem IsClear.isTold {p : Phrase} (hp : p.IsClear) : p.IsTold := by
  induction hp with
  | term hfield htext hboost =>
    intro q s s' hq hs hs' h
    have hsign := sign_eq_of_append_eq (.term hfield htext hboost) hq h
    cases hq with
    | term hfield' htext' hboost' =>
      obtain ⟨rfl, rfl, rfl⟩ := term_append_inj (.term hfield htext hboost)
        (.term hfield' htext' hboost') hs hs' h
      exact ⟨rfl, rfl⟩
    | _ => cases hsign
  | @group ps b hne hps hboost ih =>
    intro q s s' hq hs hs' h
    have hsign := sign_eq_of_append_eq (.group hne hps hboost) hq h
    cases hq with
    | @group qs b' hne' hqs hboost' =>
      have hrow : spaced ps ++ ')' :: (b.toList ++ s) = spaced qs ++ ')' :: (b'.toList ++ s') := by
        obtain ⟨p, ps, rfl⟩ := List.exists_cons_of_ne_nil hne
        obtain ⟨q, qs, rfl⟩ := List.exists_cons_of_ne_nil hne'
        simpa [chars, spaced] using h
      have hclose (r : List Char) : ∀ c ∈ (')' :: r).head?, c = ')' := fun c hc =>
        (Option.some.inj hc).symm
      obtain ⟨rfl, hrest⟩ := spaced_append_inj ih hqs (hclose _) (hclose _) hrow
      obtain ⟨rfl, rfl⟩ := boost_append_inj hboost hboost' hs hs' (List.cons.inj hrest).2
      exact ⟨rfl, rfl⟩
    | _ => cases hsign
  | must hp ih =>
    intro q s s' hq hs hs' h
    have hsign := sign_eq_of_append_eq (.must hp) hq h
    cases hq with
    | must hq =>
      obtain ⟨rfl, rfl⟩ := ih hq hs hs' (List.cons.inj h).2
      exact ⟨rfl, rfl⟩
    | _ => cases hsign
  | mustNot hp ih =>
    intro q s s' hq hs hs' h
    have hsign := sign_eq_of_append_eq (.mustNot hp) hq h
    cases hq with
    | mustNot hq =>
      obtain ⟨rfl, rfl⟩ := ih hq hs hs' (List.cons.inj h).2
      exact ⟨rfl, rfl⟩
    | _ => cases hsign

theorem spaced_inj {ps qs : List Phrase} (hps : ∀ p ∈ ps, p.IsClear) (hqs : ∀ q ∈ qs, q.IsClear)
    (h : spaced ps = spaced qs) : ps = qs := by
  have hnil : ∀ c ∈ ([] : List Char).head?, c = ')' := by simp
  have happend : spaced ps ++ [] = spaced qs ++ [] := congrArg (· ++ []) h
  exact (spaced_append_inj (fun p hp => (hps p hp).isTold) hqs hnil hnil happend).1

end Phrase

namespace Query

open Phrase (spaced)

section

variable {ω : Type} [Weight ω] [WrittenWeight ω]

/-- Without a boost the members of a group stand by themselves. -/
def groupPhrases (members : List Phrase) (b : ω) : List Phrase :=
  match boostText b with
  | none => members
  | some boost => [.group members boost]

mutual

def phrases : Query ω → List Phrase
  | .term t b => [.term t ((boostText b).getD "")]
  | .group ⟨clauses, b, _, _⟩ => groupPhrases (clausePhrases clauses) b

def clausePhrases : List (Occur × Query ω) → List Phrase
  | [] => []
  | (occur, q) :: rest => (phrases q).modifyHead occur.markOn ++ clausePhrases rest

end

theorem clauseTexts_eq (clauses : List (Occur × Query ω)) :
    clauseTexts clauses = clauses.map fun c => c.1.mark ++ c.2.text := by
  induction clauses with
  | nil => rfl
  | cons c clauses ih => rw [clauseTexts, ih, List.map_cons]

theorem clausePhrases_eq (clauses : List (Occur × Query ω)) :
    clausePhrases clauses = clauses.flatMap fun c => c.2.phrases.modifyHead c.1.markOn := by
  induction clauses with
  | nil => rfl
  | cons c clauses ih => rw [clausePhrases, ih, List.flatMap_cons]

end

theorem cons_intercalate {texts : List String} (h : texts ≠ []) :
    ' ' :: (" ".intercalate texts).toList = texts.flatMap fun s => ' ' :: s.toList := by
  induction texts with
  | nil => exact absurd rfl h
  | cons s rest ih =>
    cases rest with
    | nil => simp
    | cons s' rest =>
      rw [String.intercalate_cons_cons, List.flatMap_cons, ← ih (by simp)]
      simp

theorem spaced_modifyHead {ps : List Phrase} {r : List Char} (h : ' ' :: r = spaced ps)
    (occur : Occur) :
    ' ' :: (occur.mark.toList ++ r) = spaced (ps.modifyHead occur.markOn) := by
  cases ps with
  | nil => cases h
  | cons p ps =>
    rw [(List.cons.inj h).2, List.modifyHead_cons, spaced, Phrase.chars_markOn, List.append_assoc]

variable {ω : Type} [Weight ω] [WrittenWeight ω]

theorem spaced_clausePhrases {clauses : List (Occur × Query ω)}
    (h : ∀ c ∈ clauses, ' ' :: c.2.text.toList = spaced c.2.phrases) :
    spaced (clausePhrases clauses) =
      (clauseTexts clauses).flatMap fun s => ' ' :: s.toList := by
  induction clauses with
  | nil => rfl
  | cons c clauses ih =>
    obtain ⟨hc, hclauses⟩ := List.forall_mem_cons.1 h
    rw [clausePhrases, clauseTexts, Phrase.spaced_append, ih hclauses, ← spaced_modifyHead hc,
      List.flatMap_cons, String.toList_append]

/-- The text of a query without empty groups is its phrases in a row. -/
theorem cons_text_eq {q : Query ω} (h : ∀ g, .group g ∈ q.parts → g.clauses ≠ []) :
    ' ' :: q.text.toList = spaced q.phrases := by
  induction q with
  | term t b =>
    have hterm : (toString t).toList = t.field.toList ++ ':' :: t.text.toList := by
      change (t.field ++ ":" ++ t.text).toList = _
      simp
    rw [text, phrases, String.toList_append, hterm]
    simp [spaced, Phrase.chars]
  | group g ih =>
    obtain ⟨clauses, b, n, cap⟩ := g
    have hne : clauseTexts clauses ≠ [] := by
      rw [clauseTexts_eq, Ne, List.map_eq_nil_iff]
      exact h _ (by rw [parts_group]; exact List.mem_cons_self)
    have hrow : ' ' :: (" ".intercalate (clauseTexts clauses)).toList =
        spaced (clausePhrases clauses) := by
      rw [cons_intercalate hne]
      apply (spaced_clausePhrases _).symm
      exact fun c hc => ih c hc fun k hk => h k (mem_parts_group_of_mem hc hk)
    rw [text, phrases, groupText, groupPhrases]
    cases boostText b with
    | none => exact hrow
    | some boost =>
      simp [spaced, Phrase.chars, ← hrow]

end Query
end TermMining
