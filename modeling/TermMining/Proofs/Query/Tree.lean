import TermMining.Query

/-! Queries as trees: an induction over them, and the recursions over a query as equations with
`flatMap`. -/
namespace TermMining.Query

variable {ω : Type}

mutual

@[elab_as_elim, induction_eliminator]
theorem induct {motive : Query ω → Prop} (term : ∀ t b, motive (.term t b))
    (group : ∀ g : Group (Query ω) ω, (∀ c ∈ g.clauses, motive c.2) → motive (.group g)) :
    ∀ q, motive q
  | .term t b => term t b
  | .group ⟨clauses, b, n, cap⟩ => group ⟨clauses, b, n, cap⟩ (inductClauses term group clauses)

theorem inductClauses {motive : Query ω → Prop} (term : ∀ t b, motive (.term t b))
    (group : ∀ g : Group (Query ω) ω, (∀ c ∈ g.clauses, motive c.2) → motive (.group g)) :
    ∀ clauses : List (Occur × Query ω), ∀ c ∈ clauses, motive c.2
  | [] => by simp
  | (_, q) :: rest => List.forall_mem_cons.2 ⟨induct term group q, inductClauses term group rest⟩

end

mutual

def parts : Query ω → List (Query ω)
  | .term t b => [.term t b]
  | .group ⟨clauses, b, n, cap⟩ => .group ⟨clauses, b, n, cap⟩ :: clauseParts clauses

def clauseParts : List (Occur × Query ω) → List (Query ω)
  | [] => []
  | (_, q) :: rest => parts q ++ clauseParts rest

end

theorem clauseParts_eq (clauses : List (Occur × Query ω)) :
    clauseParts clauses = clauses.flatMap fun c => c.2.parts := by
  induction clauses with
  | nil => rfl
  | cons c clauses ih => rw [clauseParts, ih, List.flatMap_cons]

theorem parts_group (g : Group (Query ω) ω) :
    (group g).parts = .group g :: g.clauses.flatMap fun c => c.2.parts :=
  congrArg (_ :: ·) (clauseParts_eq g.clauses)

theorem mem_parts_group_of_mem {g : Group (Query ω) ω} {c : Occur × Query ω} (hc : c ∈ g.clauses)
    {p : Query ω} (hp : p ∈ c.2.parts) : p ∈ (group g).parts := by
  rw [parts_group]
  exact List.mem_cons_of_mem _ (List.mem_flatMap.2 ⟨c, hc, hp⟩)

theorem clauseTerms_eq (clauses : List (Occur × Query ω)) :
    clauseTerms clauses = clauses.flatMap fun c => c.2.terms := by
  induction clauses with
  | nil => rfl
  | cons c clauses ih => rw [clauseTerms, ih, List.flatMap_cons]

theorem terms_group (g : Group (Query ω) ω) :
    (group g).terms = g.clauses.flatMap fun c => c.2.terms := clauseTerms_eq g.clauses

end TermMining.Query
