import Mathlib.Data.List.Perm.Basic
import TermMining.Proofs.Query.Tree
import TermMining.Query.Outline

/-! The outline of a query has all its terms. It sorts the clauses of every group by their part, so
they may come in another order. -/
namespace TermMining

namespace Outline

variable {ω : Type}

mutual

def terms : Outline ω → List Term
  | .term field text _ => [⟨field, text⟩]
  | .group _ must should mustNot _ => rowTerms must ++ rowTerms should ++ rowTerms mustNot

def rowTerms : List (Outline ω) → List Term
  | [] => []
  | o :: rest => terms o ++ rowTerms rest

end

theorem rowTerms_eq (row : List (Outline ω)) : rowTerms row = row.flatMap terms := by
  induction row with
  | nil => rfl
  | cons o row ih => rw [rowTerms, ih, List.flatMap_cons]

end Outline

/-- The order of the parts in an outline. -/
def Occur.place : Occur → Nat
  | must => 0
  | should => 1
  | mustNot => 2

namespace Group

variable {χ ω : Type}

/-- What must match comes first, and what must not comes last. -/
def IsParted (g : Group χ ω) : Prop := g.clauses.Pairwise fun c d => c.1.place ≤ d.1.place

def parted (g : Group χ ω) : List χ := g.queries .must ++ g.queries .should ++ g.queries .mustNot

theorem queries_cons (c : Occur × χ) (rest : List (Occur × χ)) (b : ω) (n cap : Int)
    (occur : Occur) :
    queries ⟨c :: rest, b, n, cap⟩ occur =
      (if c.1 = occur then [c.2] else []) ++ queries ⟨rest, b, n, cap⟩ occur := by
  unfold queries
  by_cases h : c.1 = occur <;> simp [h]

theorem parted_perm (g : Group χ ω) : g.parted.Perm (g.clauses.map Prod.snd) := by
  obtain ⟨clauses, b, n, cap⟩ := g
  unfold parted
  induction clauses with
  | nil => exact List.Perm.refl _
  | cons c rest ih =>
    obtain ⟨occur, q⟩ := c
    simp only [queries_cons, List.map_cons]
    cases occur with
    | must => exact ih.cons q
    | should =>
      simp only [reduceCtorEq, if_true, if_false, List.nil_append, List.append_assoc] at ih ⊢
      exact List.perm_middle.trans (ih.cons q)
    | mustNot =>
      simp only [reduceCtorEq, if_true, if_false, List.nil_append] at ih ⊢
      exact List.perm_middle.trans (ih.cons q)

/-- Where all clauses come from `first` on, there is none of the parts before it. -/
theorem queries_eq_nil {clauses : List (Occur × χ)} {b : ω} {n cap : Int} {first occur : Occur}
    (h : ∀ c ∈ clauses, first.place ≤ c.1.place) (hlt : occur.place < first.place) :
    queries ⟨clauses, b, n, cap⟩ occur = [] := by
  unfold queries
  rw [List.map_eq_nil_iff, List.filter_eq_nil_iff]
  intro c hc heq
  have hle := h c hc
  rw [of_decide_eq_true heq] at hle
  exact absurd hlt (Nat.not_lt.2 hle)

theorem IsParted.parted_eq {g : Group χ ω} (h : g.IsParted) :
    g.parted = g.clauses.map Prod.snd := by
  obtain ⟨clauses, b, n, cap⟩ := g
  unfold parted
  induction clauses with
  | nil => rfl
  | cons c rest ih =>
    obtain ⟨occur, q⟩ := c
    obtain ⟨hlater, hrest⟩ := List.pairwise_cons.1 h
    have ih := ih hrest
    simp only [queries_cons, List.map_cons]
    cases occur with
    | must => exact congrArg (q :: ·) ih
    | should =>
      have hlater : ∀ d ∈ rest, Occur.should.place ≤ d.1.place := hlater
      have hmust : queries ⟨rest, b, n, cap⟩ .must = [] := queries_eq_nil hlater (by decide)
      rw [hmust] at ih ⊢
      exact congrArg (q :: ·) ih
    | mustNot =>
      have hlater : ∀ d ∈ rest, Occur.mustNot.place ≤ d.1.place := hlater
      have hmust : queries ⟨rest, b, n, cap⟩ .must = [] := queries_eq_nil hlater (by decide)
      have hshould : queries ⟨rest, b, n, cap⟩ .should = [] := queries_eq_nil hlater (by decide)
      rw [hmust, hshould] at ih ⊢
      exact congrArg (q :: ·) ih

end Group

namespace Query

variable {ω : Type}

theorem outlines_eq (occur : Occur) (clauses : List (Occur × Query ω)) (b : ω) (n cap : Int) :
    outlines occur clauses = (Group.queries ⟨clauses, b, n, cap⟩ occur).map outline := by
  induction clauses with
  | nil => rfl
  | cons c rest ih =>
    rw [outlines, Group.queries_cons, List.map_append, ih]
    split <;> rfl

theorem outline_group (g : Group (Query ω) ω) :
    outline (.group g) = .group g.boost ((g.queries .must).map outline)
      ((g.queries .should).map outline) ((g.queries .mustNot).map outline)
      g.minimumShouldMatch := by
  obtain ⟨clauses, b, n, cap⟩ := g
  rw [outline, outlines_eq .must clauses b n cap, outlines_eq .should clauses b n cap,
    outlines_eq .mustNot clauses b n cap]

theorem terms_outline_group (g : Group (Query ω) ω) :
    (outline (.group g)).terms = g.parted.flatMap fun q => (outline q).terms := by
  rw [outline_group, Outline.terms, Group.parted]
  simp only [Outline.rowTerms_eq, List.flatMap_append, List.flatMap_map]

theorem terms_outline_perm (q : Query ω) : (outline q).terms.Perm q.terms := by
  induction q with
  | term t b => exact List.Perm.refl _
  | group g ih =>
    rw [terms_outline_group, terms_group]
    have hparted := g.parted_perm.flatMap_right fun q => (outline q).terms
    rw [List.flatMap_map] at hparted
    exact hparted.trans (List.Perm.flatMap_left _ ih)

theorem terms_outline_eq {q : Query ω} (h : ∀ g, .group g ∈ q.parts → g.IsParted) :
    (outline q).terms = q.terms := by
  induction q with
  | term t b => rfl
  | group g ih =>
    have hg : g.IsParted := h g (by rw [parts_group]; exact List.mem_cons_self)
    rw [terms_outline_group, terms_group, hg.parted_eq, List.flatMap_map]
    exact List.flatMap_congr fun c hc => ih c hc fun k hk => h k (mem_parts_group_of_mem hc hk)

/-- In the outline of a query every group has the outlines of its clauses, each in its part and in
the order of the clauses, and none else. The terms are those of the query, and in the same order if
every group has its clauses in the order of the parts. -/
theorem outline_keeps_clauses (q : Query ω) :
    (∀ g, .group g ∈ q.parts →
      let must := (g.queries .must).map outline
      let should := (g.queries .should).map outline
      let mustNot := (g.queries .mustNot).map outline
      outline (.group g) = .group g.boost must should mustNot g.minimumShouldMatch ∧
        must.length + should.length + mustNot.length = g.clauses.length) ∧
    (outline q).terms.Perm q.terms ∧
    ((∀ g, .group g ∈ q.parts → g.IsParted) → (outline q).terms = q.terms) := by
  constructor
  · intro g _ must should mustNot
    constructor
    · exact outline_group g
    · have hlength := g.parted_perm.length_eq
      simpa [Group.parted, must, should, mustNot, Nat.add_assoc] using hlength
  constructor
  · exact terms_outline_perm q
  · exact terms_outline_eq

/-- Two groups, one in the other, that have all three parts in order. -/
theorem outline_keeps_clauses_nested :
    let term (text : String) : Query Nat := .term ⟨"f", text⟩ 1
    let inner : Query Nat :=
      .group { clauses := [(.must, term "b"), (.mustNot, term "c")], boost := 2 }
    let q : Query Nat :=
      .group { clauses := [(.must, term "a"), (.should, inner), (.mustNot, term "d")], boost := 1 }
    (∀ g, .group g ∈ q.parts → g.IsParted) ∧ (outline q).terms = q.terms := by
  intro term inner q
  have hparted : ∀ g, .group g ∈ q.parts → g.IsParted := by
    intro g hg
    simp only [q, inner, term, parts, clauseParts, List.nil_append, List.cons_append,
      List.mem_cons, List.not_mem_nil, or_false, Query.group.injEq, reduceCtorEq, false_or] at hg
    rcases hg with rfl | rfl <;> simp [Group.IsParted, Occur.place]
  exact ⟨hparted, (outline_keeps_clauses q).2.2 hparted⟩

end Query
end TermMining
