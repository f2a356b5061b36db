import Mathlib.Data.List.Basic
import Mathlib.Data.Set.Function
import TermMining.Proofs.Number.Text
import TermMining.Proofs.Query.Phrases
import TermMining.Text.Letter
import TermMining.Weight.Double

/-! Queries have the same text if they show the same phrases: a group without a boost inside another
one cannot be told from its members. -/
namespace TermMining

namespace Phrase

def occur : Phrase → Occur
  | .must _ => .must
  | .mustNot _ => .mustNot
  | _ => .should

def withoutMark : Phrase → Phrase
  | .must p => p
  | .mustNot p => p
  | p => p

theorem occur_markOn {p : Phrase} (hp : p.occur = .should) (occur : Occur) :
    (occur.markOn p).occur = occur := by
  cases occur with
  | should => exact hp
  | _ => rfl

theorem withoutMark_markOn {p : Phrase} (hp : p.occur = .should) (occur : Occur) :
    (occur.markOn p).withoutMark = p := by
  cases occur with
  | should =>
    cases p with
    | term => rfl
    | group => rfl
    | must => cases hp
    | mustNot => cases hp
  | _ => rfl

end Phrase

namespace Query

section Shape

variable {ω : Type}

mutual

/-- The query without what its text leaves out: the caps, and how many clauses have to match. -/
def bare : Query ω → Query ω
  | .term t b => .term t b
  | .group ⟨clauses, b, _, _⟩ => .group { clauses := bareClauses clauses, boost := b }

def bareClauses : List (Occur × Query ω) → List (Occur × Query ω)
  | [] => []
  | (occur, q) :: rest => (occur, bare q) :: bareClauses rest

end

theorem bareClauses_eq (clauses : List (Occur × Query ω)) :
    bareClauses clauses = clauses.map fun c => (c.1, c.2.bare) := by
  induction clauses with
  | nil => rfl
  | cons c clauses ih => rw [bareClauses, ih, List.map_cons]

/-- No name has a character that stands for something else in a text, and no group is empty. -/
structure IsReadable (q : Query ω) : Prop where
  names : ∀ t ∈ q.terms, ∀ c ∈ t.field.toList ++ t.text.toList, Phrase.isSign c = false
  occupied : ∀ g, .group g ∈ q.parts → g.clauses ≠ []

theorem IsReadable.of_mem {g : Group (Query ω) ω} (h : (group g).IsReadable)
    {c : Occur × Query ω} (hc : c ∈ g.clauses) : c.2.IsReadable where
  names t ht := h.names t (by rw [terms_group]; exact List.mem_flatMap.2 ⟨c, hc, ht⟩)
  occupied k hk := h.occupied k (mem_parts_group_of_mem hc hk)

theorem isReadable_of_letters {q : Query ω}
    (h : ∀ t ∈ q.terms, ∀ c ∈ t.field.toList ++ t.text.toList, Text.isLetter c = true)
    (hne : ∀ g, .group g ∈ q.parts → g.clauses ≠ []) : q.IsReadable where
  names t ht c hc := by
    rw [Bool.eq_false_iff]
    intro hsign
    have hletter := h t ht c hc
    have hmem : c ∈ [' ', '+', '-', ':', '^', '(', ')'] := of_decide_eq_true hsign
    simp only [List.mem_cons, List.not_mem_nil, or_false] at hmem
    rcases hmem with rfl | rfl | rfl | rfl | rfl | rfl | rfl <;> exact absurd hletter (by decide)
  occupied := hne

variable [Weight ω] [WrittenWeight ω]

/-- The clauses that the text of a query shows side by side. A term or a group with a boost is the
only one. -/
def members : Query ω → List (Occur × Query ω)
  | .term t b => [(.should, .term t b)]
  | .group g =>
    match boostText g.boost with
    | none => g.clauses
    | some _ => [(.should, .group g)]

/-- All groups are written in parentheses. -/
def IsBoosted (q : Query ω) : Prop := ∀ g, .group g ∈ q.parts → boostText g.boost ≠ none

/-- Below the outermost clauses all groups are written in parentheses. -/
def IsDelimited (q : Query ω) : Prop := ∀ c ∈ q.members, c.2.IsBoosted

end Shape

section Phrases

variable {ω : Type} [Weight ω] [WrittenWeight ω]

theorem phrases_group (g : Group (Query ω) ω) :
    (group g).phrases = groupPhrases (clausePhrases g.clauses) g.boost := rfl

theorem phrases_group_of_boost {g : Group (Query ω) ω} {boost : String}
    (h : boostText g.boost = some boost) :
    (group g).phrases = [.group (clausePhrases g.clauses) boost] := by
  rw [phrases_group, groupPhrases, h]

theorem clausePhrases_singleton (q : Query ω) : clausePhrases [(.should, q)] = q.phrases := by
  rw [clausePhrases, clausePhrases, List.append_nil]
  exact congrFun List.modifyHead_id q.phrases

theorem members_group (g : Group (Query ω) ω) :
    (group g).members =
      match boostText g.boost with
      | none => g.clauses
      | some _ => [(.should, .group g)] := rfl

theorem clausePhrases_members (q : Query ω) : clausePhrases q.members = q.phrases := by
  cases q with
  | term t b => exact clausePhrases_singleton _
  | group g =>
    rw [members_group]
    cases h : boostText g.boost with
    | none => rw [phrases_group, groupPhrases, h]
    | some boost => exact clausePhrases_singleton _

theorem mem_parts_of_mem_members {q : Query ω} {c : Occur × Query ω} (hc : c ∈ q.members)
    {p : Query ω} (hp : p ∈ c.2.parts) : p ∈ q.parts := by
  cases q with
  | term t b =>
    obtain rfl := List.mem_singleton.1 hc
    exact hp
  | group g =>
    rw [members_group] at hc
    split at hc
    · exact mem_parts_group_of_mem hc hp
    · obtain rfl := List.mem_singleton.1 hc
      exact hp

theorem phrases_bare (q : Query ω) : q.bare.phrases = q.phrases := by
  induction q with
  | term t b => rfl
  | group g ih =>
    obtain ⟨clauses, b, n, cap⟩ := g
    rw [bare, phrases_group, phrases_group]
    congr 1
    rw [bareClauses_eq, clausePhrases_eq, clausePhrases_eq, List.flatMap_map]
    exact List.flatMap_congr fun c hc => by rw [ih c hc]

theorem clausePhrases_bareClauses (clauses : List (Occur × Query ω)) :
    clausePhrases (bareClauses clauses) = clausePhrases clauses := by
  rw [bareClauses_eq, clausePhrases_eq, clausePhrases_eq, List.flatMap_map]
  exact List.flatMap_congr fun c _ => by rw [phrases_bare]

theorem IsBoosted.of_mem {g : Group (Query ω) ω} (h : (group g).IsBoosted) {c : Occur × Query ω}
    (hc : c ∈ g.clauses) : c.2.IsBoosted := fun k hk => h k (mem_parts_group_of_mem hc hk)

theorem IsBoosted.exists_boost {g : Group (Query ω) ω} (h : (group g).IsBoosted) :
    ∃ boost, boostText g.boost = some boost :=
  Option.ne_none_iff_exists'.1 (h g (by rw [parts_group]; exact List.mem_cons_self))

theorem IsBoosted.exists_phrases_eq {q : Query ω} (h : q.IsBoosted) :
    ∃ p, q.phrases = [p] ∧ p.occur = .should := by
  cases q with
  | term t b => exact ⟨_, rfl, rfl⟩
  | group g =>
    obtain ⟨boost, hboost⟩ := h.exists_boost
    exact ⟨_, phrases_group_of_boost hboost, rfl⟩

/-- Marked phrases of queries in parentheses tell the marks and the queries. -/
theorem bareClauses_eq_of_phrases {clauses clauses' : List (Occur × Query ω)}
    (hb : ∀ c ∈ clauses, c.2.IsBoosted) (hb' : ∀ c ∈ clauses', c.2.IsBoosted)
    (hinj : ∀ c ∈ clauses, ∀ c' ∈ clauses', c.2.phrases = c'.2.phrases → c.2.bare = c'.2.bare)
    (h : clausePhrases clauses = clausePhrases clauses') :
    bareClauses clauses = bareClauses clauses' := by
  have hcons {c : Occur × Query ω} {rest : List (Occur × Query ω)} {p : Phrase}
      (hp : c.2.phrases = [p]) :
      clausePhrases (c :: rest) = c.1.markOn p :: clausePhrases rest := by
    rw [clausePhrases, hp]
    rfl
  induction clauses generalizing clauses' with
  | nil =>
    cases clauses' with
    | nil => rfl
    | cons c' clauses' =>
      obtain ⟨p', hp', -⟩ := hb' c' List.mem_cons_self |>.exists_phrases_eq
      rw [hcons hp'] at h
      cases h
  | cons c clauses ih =>
    obtain ⟨p, hp, hmark⟩ := hb c List.mem_cons_self |>.exists_phrases_eq
    rw [hcons hp] at h
    cases clauses' with
    | nil => cases h
    | cons c' clauses' =>
      obtain ⟨p', hp', hmark'⟩ := hb' c' List.mem_cons_self |>.exists_phrases_eq
      rw [hcons hp'] at h
      obtain ⟨hhead, hrest⟩ := List.cons.inj h
      have hoccur : c.1 = c'.1 := by
        rw [← Phrase.occur_markOn hmark c.1, hhead, Phrase.occur_markOn hmark']
      have hphrase : p = p' := by
        rw [← Phrase.withoutMark_markOn hmark c.1, hhead, Phrase.withoutMark_markOn hmark']
      have hbare : c.2.bare = c'.2.bare := by
        apply hinj c List.mem_cons_self c' List.mem_cons_self
        rw [hp, hp', hphrase]
      have hlater := ih (fun d hd => hb d (List.mem_cons_of_mem _ hd))
        (fun d hd => hb' d (List.mem_cons_of_mem _ hd))
        (fun d hd d' hd' => hinj d (List.mem_cons_of_mem _ hd) d' (List.mem_cons_of_mem _ hd'))
        hrest
      rw [bareClauses_eq, bareClauses_eq] at hlater ⊢
      rw [List.map_cons, List.map_cons, hlater, hoccur, hbare]

theorem IsReadable.phrases_ne_nil {q : Query ω} (h : q.IsReadable) : q.phrases ≠ [] := by
  intro hnil
  have htext := cons_text_eq h.occupied
  rw [hnil] at htext
  cases htext

theorem IsReadable.clausePhrases_ne_nil {g : Group (Query ω) ω} (h : (group g).IsReadable) :
    clausePhrases g.clauses ≠ [] := by
  have hne := h.occupied g (by rw [parts_group]; exact List.mem_cons_self)
  obtain ⟨c, rest, hc⟩ := List.exists_cons_of_ne_nil hne
  have hfirst := (h.of_mem (hc ▸ List.mem_cons_self : c ∈ g.clauses)).phrases_ne_nil
  rw [hc, clausePhrases]
  exact List.append_ne_nil_of_left_ne_nil (mt List.modifyHead_eq_nil_iff.1 hfirst) _

theorem intercalate_append_cons (sep mark first : String) (rest : List String) :
    sep.intercalate ((mark ++ first) :: rest) = mark ++ sep.intercalate (first :: rest) := by
  cases rest with
  | nil => rw [String.intercalate_singleton, String.intercalate_singleton]
  | cons second rest =>
    rw [String.intercalate_cons_cons, String.intercalate_cons_cons]
    simp only [String.append_assoc]

/-- A row in front of another one, with a mark on its first entry. -/
theorem intercalate_intercalate_cons (sep mark first : String) (rest later : List String) :
    sep.intercalate ((mark ++ sep.intercalate (first :: rest)) :: later) =
      sep.intercalate ((mark ++ first) :: (rest ++ later)) := by
  rw [← intercalate_append_cons]
  cases later with
  | nil => rw [String.intercalate_singleton, List.append_nil]
  | cons next later =>
    rw [String.intercalate_cons_cons, ← List.cons_append,
      String.intercalate_append_of_ne_nil (List.cons_ne_nil _ _) (List.cons_ne_nil _ _)]

/-- A group without a boost is written like the row of its members, with its mark on the first. -/
theorem text_cons_group {g : Group (Query ω) ω} (hboost : boostText g.boost = none) {q : Query ω}
    {rest : List (Occur × Query ω)} (hg : g.clauses = (.should, q) :: rest) (occur : Occur)
    (later : List (Occur × Query ω)) (outer : Group (Query ω) ω) :
    (group { outer with clauses := (occur, .group g) :: later }).text =
      (group { outer with clauses := (occur, q) :: (rest ++ later) }).text := by
  have hinner : (group g).text = " ".intercalate (q.text :: clauseTexts rest) := by
    have hfirst : Occur.should.mark ++ q.text = q.text := String.empty_append
    change groupText (clauseTexts g.clauses) g.boost = _
    rw [groupText, hboost, hg, clauseTexts, hfirst]
  have hrow : " ".intercalate (clauseTexts ((occur, .group g) :: later)) =
      " ".intercalate (clauseTexts ((occur, q) :: (rest ++ later))) := by
    have happend : clauseTexts (rest ++ later) = clauseTexts rest ++ clauseTexts later := by
      simp only [clauseTexts_eq, List.map_append]
    rw [clauseTexts, clauseTexts, hinner, happend, intercalate_intercalate_cons]
  change groupText _ _ = groupText _ _
  rw [groupText, groupText, hrow]

end Phrases

section Doubles

theorem isBoost_of_boostText {b : Float} {boost : String} (h : boostText b = some boost) :
    Phrase.IsBoost boost := by
  unfold boostText at h
  split at h
  · cases h
  · obtain rfl := Option.some.inj h
    have hchars : ("^" ++ Number.text b).toList = '^' :: (Number.text b).toList := by simp
    constructor
    · intro c hc
      change c ∈ ("^" ++ Number.text b).toList.head? at hc
      rw [hchars] at hc
      exact (Option.some.inj hc).symm
    · intro c hc
      change c ∈ ("^" ++ Number.text b).toList at hc
      rw [hchars] at hc
      rcases List.mem_cons.1 hc with rfl | hc
      · decide
      · rcases Number.isFigure_of_mem_text hc with hdigit | hother
        · constructor <;> rintro rfl <;> exact absurd hdigit (by decide)
        · constructor <;> rintro rfl <;> exact absurd hother (by decide)

theorem boostText_one : boostText (1 : Float) = none := by decide +kernel

theorem boostText_ne_some_empty (b : Float) : boostText b ≠ some "" := by
  intro h
  have hchars := congrArg (Option.map String.toList) h
  unfold boostText at hchars
  split at hchars <;> simp at hchars

theorem boostText_eq_of_getD_eq {a b : Float}
    (h : (boostText a).getD "" = (boostText b).getD "") : boostText a = boostText b := by
  cases ha : boostText a with
  | none =>
    cases hb : boostText b with
    | none => rfl
    | some boost =>
      rw [ha, hb] at h
      obtain rfl : "" = boost := h
      exact absurd hb (boostText_ne_some_empty b)
  | some boost =>
    cases hb : boostText b with
    | none =>
      rw [ha, hb] at h
      obtain rfl : boost = "" := h
      exact absurd ha (boostText_ne_some_empty a)
    | some boost' =>
      rw [ha, hb] at h
      exact congrArg some h

theorem isBoost_getD_boostText (b : Float) : Phrase.IsBoost ((boostText b).getD "") := by
  cases h : boostText b with
  | none => exact ⟨by simp, by simp⟩
  | some boost => exact isBoost_of_boostText h

theorem isClear_markOn {p : Phrase} (h : p.IsClear) (occur : Occur) :
    (occur.markOn p).IsClear := by
  cases occur with
  | must => exact .must h
  | should => exact h
  | mustNot => exact .mustNot h

theorem IsReadable.isClear_of_mem_phrases {q : Query Float} (h : q.IsReadable) :
    ∀ p ∈ q.phrases, p.IsClear := by
  induction q with
  | term t b =>
    intro p hp
    obtain rfl := List.mem_singleton.1 hp
    have hnames := h.names t List.mem_cons_self
    exact .term (fun c hc => hnames c (List.mem_append_left _ hc))
      (fun c hc => hnames c (List.mem_append_right _ hc)) (isBoost_getD_boostText b)
  | group g ih =>
    have hmembers : ∀ p ∈ clausePhrases g.clauses, p.IsClear := by
      intro p hp
      rw [clausePhrases_eq] at hp
      obtain ⟨c, hc, hp⟩ := List.mem_flatMap.1 hp
      have hclear := ih c hc (h.of_mem hc)
      cases hphrases : c.2.phrases with
      | nil =>
        rw [hphrases] at hp
        cases hp
      | cons first rest =>
        rw [hphrases] at hp hclear
        rcases List.mem_cons.1 hp with rfl | hp
        · exact isClear_markOn (hclear first List.mem_cons_self) c.1
        · exact hclear p (List.mem_cons_of_mem _ hp)
    cases hboost : boostText g.boost with
    | none =>
      rw [phrases_group, groupPhrases, hboost]
      exact hmembers
    | some boost =>
      rw [phrases_group_of_boost hboost]
      intro p hp
      obtain rfl := List.mem_singleton.1 hp
      exact .group h.clausePhrases_ne_nil hmembers (isBoost_of_boostText hboost)

theorem text_eq_iff_phrases_eq {q q' : Query Float} (h : q.IsReadable) (h' : q'.IsReadable) :
    q.text = q'.text ↔ q.phrases = q'.phrases := by
  have htext := cons_text_eq h.occupied
  have htext' := cons_text_eq h'.occupied
  constructor
  · intro heq
    rw [heq, htext'] at htext
    exact (Phrase.spaced_inj h'.isClear_of_mem_phrases h.isClear_of_mem_phrases htext).symm
  · intro heq
    rw [heq, ← htext'] at htext
    exact String.toList_inj.1 (List.cons.inj htext).2

variable {S : Set Float} (hS : S.InjOn Number.text)

include hS

/-- A boost that is not written is one, and the others can be told if their texts can. -/
theorem boostText_inj {a b : Float} (ha : a ∈ S) (hb : b ∈ S) (h : boostText a = boostText b) :
    a = b := by
  have hone (x : Float) :
      boostText x = if Number.same x 1 then none else some ("^" ++ Number.text x) := rfl
  rw [hone, hone] at h
  split at h <;> split at h
  · next hx hy => rw [(Number.same_one_iff a).1 hx, (Number.same_one_iff b).1 hy]
  · cases h
  · cases h
  · have hwritten : "^" ++ Number.text a = "^" ++ Number.text b := Option.some.inj h
    exact hS ha hb ((String.append_right_inj _).1 hwritten)

/-- The phrases of queries in parentheses tell the queries. -/
theorem bare_eq_of_phrases_eq {q q' : Query Float} (hq : q.IsBoosted) (hq' : q'.IsBoosted)
    (hb : ∀ p ∈ q.parts, p.boost ∈ S) (hb' : ∀ p ∈ q'.parts, p.boost ∈ S)
    (h : q.phrases = q'.phrases) : q.bare = q'.bare := by
  induction q generalizing q' with
  | term t b =>
    cases q' with
    | term t' b' =>
      have hphrase := (List.cons.inj h).1
      simp only [Phrase.term.injEq] at hphrase
      obtain ⟨rfl, hboost⟩ := hphrase
      obtain rfl : b = b' := boostText_inj hS (hb _ List.mem_cons_self) (hb' _ List.mem_cons_self)
        (boostText_eq_of_getD_eq hboost)
      rfl
    | group g' =>
      obtain ⟨boost', hboost'⟩ := hq'.exists_boost
      rw [phrases_group_of_boost hboost'] at h
      cases h
  | group g ih =>
    obtain ⟨boost, hboost⟩ := hq.exists_boost
    rw [phrases_group_of_boost hboost] at h
    cases q' with
    | term t' b' => cases h
    | group g' =>
      obtain ⟨boost', hboost'⟩ := hq'.exists_boost
      rw [phrases_group_of_boost hboost'] at h
      have hphrase := (List.cons.inj h).1
      simp only [Phrase.group.injEq] at hphrase
      obtain ⟨hmembers, rfl⟩ := hphrase
      have hboosts : g.boost = g'.boost := by
        apply boostText_inj hS (hb (.group g) _) (hb' (.group g') _) (hboost.trans hboost'.symm)
        all_goals rw [parts_group]; exact List.mem_cons_self
      have hclauses : bareClauses g.clauses = bareClauses g'.clauses := by
        apply bareClauses_eq_of_phrases (fun c hc => hq.of_mem hc) (fun c hc => hq'.of_mem hc) _
          hmembers
        intro c hc c' hc'
        exact ih c hc (hq.of_mem hc) (hq'.of_mem hc')
          (fun p hp => hb p (mem_parts_group_of_mem hc hp))
          (fun p hp => hb' p (mem_parts_group_of_mem hc' hp))
      obtain ⟨clauses, b, n, cap⟩ := g
      obtain ⟨clauses', b', n', cap'⟩ := g'
      rw [bare, bare]
      exact congrArg₂ (fun clauses boost => group { clauses, boost }) hclauses hboosts

end Doubles

/-- Two queries have the same text exactly when they show the same phrases. If all groups below the
outermost clauses are boosted, and the boosts can be told from their texts, then exactly when they
have the same clauses, boosts included. -/
theorem text_eq_text_iff {q q' : Query Float} (hq : q.IsReadable) (hq' : q'.IsReadable) :
    (q.text = q'.text ↔ q.phrases = q'.phrases) ∧
      (Set.InjOn Number.text {b | ∃ p ∈ q.parts ++ q'.parts, p.boost = b} →
        q.IsDelimited → q'.IsDelimited →
          (q.text = q'.text ↔ bareClauses q.members = bareClauses q'.members)) := by
  refine ⟨text_eq_iff_phrases_eq hq hq', fun hinj hd hd' => ?_⟩
  rw [text_eq_iff_phrases_eq hq hq', ← clausePhrases_members q, ← clausePhrases_members q']
  constructor
  · intro h
    apply bareClauses_eq_of_phrases hd hd' _ h
    intro c hc c' hc'
    apply bare_eq_of_phrases_eq hinj (hd c hc) (hd' c' hc')
    · intro p hp
      exact ⟨p, List.mem_append_left _ (mem_parts_of_mem_members hc hp), rfl⟩
    · intro p hp
      exact ⟨p, List.mem_append_right _ (mem_parts_of_mem_members hc' hp), rfl⟩
  · intro h
    rw [← clausePhrases_bareClauses, h, clausePhrases_bareClauses]

/-- A boosted group is told from the row of its members, and not from itself with another cap. -/
theorem text_eq_text_iff_boosted :
    let a : Query Float := .term ⟨"f", "a"⟩ 0.5
    let b : Query Float := .term ⟨"f", "b"⟩ 1
    let inner (cap : Int) : Query Float :=
      .group { clauses := [(.mustNot, a), (.should, b)], boost := 2, maxClauses := cap }
    let q (cap : Int) : Query Float :=
      .group { clauses := [(.must, inner cap), (.should, b)], boost := 1 }
    let flat : Query Float :=
      .group { clauses := [(.must, a), (.should, b), (.should, b)], boost := 1 }
    (∀ cap, (q cap).IsReadable) ∧ flat.IsReadable ∧ (∀ cap, (q cap).IsDelimited) ∧
      flat.IsDelimited ∧ (q 2).text = (q 3).text ∧ (q 2).text ≠ flat.text := by
  intro a b inner q flat
  have hq (cap : Int) : (q cap).IsReadable := by
    apply isReadable_of_letters
    · simp [q, inner, a, b, terms, clauseTerms]
      decide
    · simp [q, inner, a, b, parts, clauseParts]
  have hflat : flat.IsReadable := by
    apply isReadable_of_letters
    · simp [flat, a, b, terms, clauseTerms]
      decide
    · simp [flat, a, b, parts, clauseParts]
  have htwo : boostText (2 : Float) = some "^2.0" := by decide +kernel
  have hdelimited (cap : Int) : (q cap).IsDelimited := by
    simp [IsDelimited, IsBoosted, q, inner, a, b, members_group, boostText_one, htwo, parts,
      clauseParts]
  have hdelimited' : flat.IsDelimited := by
    simp [IsDelimited, IsBoosted, flat, a, b, members_group, boostText_one, parts]
  have hboosts (q' : Query Float) (hq' : ∀ p ∈ q'.parts, p.boost ∈ [1, 2, 0.5]) :
      Set.InjOn Number.text {b | ∃ p ∈ (q 2).parts ++ q'.parts, p.boost = b} := by
    have hall : ∀ p ∈ (q 2).parts ++ q'.parts, p.boost ∈ ([1, 2, 0.5] : List Float) := by
      simp only [List.forall_mem_append]
      refine ⟨?_, hq'⟩
      simp [q, inner, a, b, parts, clauseParts, boost]
    have htexts : ∀ x ∈ ([1, 2, 0.5] : List Float), ∀ y ∈ ([1, 2, 0.5] : List Float),
        Number.text x = Number.text y → x = y := by decide +kernel
    rintro - ⟨p, hp, rfl⟩ - ⟨p', hp', rfl⟩
    exact htexts _ (hall p hp) _ (hall p' hp')
  have hinj := hboosts (q 3) (by simp [q, inner, a, b, parts, clauseParts, boost])
  have hinj' := hboosts flat (by simp [flat, a, b, parts, clauseParts, boost])
  refine ⟨hq, hflat, hdelimited, hdelimited', ?_, fun h => ?_⟩
  · rw [(text_eq_text_iff (hq 2) (hq 3)).2 hinj (hdelimited 2) (hdelimited 3)]
    simp [q, inner, members_group, boostText_one, bareClauses, bare]
  · rw [(text_eq_text_iff (hq 2) hflat).2 hinj' (hdelimited 2) hdelimited'] at h
    simp [q, inner, flat, a, b, members_group, boostText_one, bareClauses, bare] at h

/-- A mark in front of a group without a boost is that of the first member. -/
theorem text_eq_text_marked :
    let a : Query Float := .term ⟨"f", "a"⟩ 1
    let b : Query Float := .term ⟨"f", "b"⟩ 1
    let inner : Group (Query Float) Float := { clauses := [(.should, a), (.should, b)], boost := 1 }
    let q : Query Float := .group { clauses := [(.must, .group inner)], boost := 1 }
    let flat : Query Float := .group { clauses := [(.must, a), (.should, b)], boost := 1 }
    q.text = "+f:a f:b" ∧ flat.text = "+f:a f:b" ∧
      bareClauses q.members ≠ bareClauses flat.members := by
  intro a b inner q flat
  have hflat : flat.text = "+f:a f:b" := by decide +kernel
  have hsame : q.text = flat.text :=
    text_cons_group (g := inner) boostText_one rfl .must [] { boost := 1 }
  refine ⟨hsame.trans hflat, hflat, fun h => ?_⟩
  simp [q, flat, inner, a, b, members_group, boostText_one, bareClauses, bare] at h

end Query
end TermMining
