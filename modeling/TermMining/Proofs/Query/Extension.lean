import TermMining.Proofs.Query
import TermMining.Proofs.Shortlist.Lineup
import TermMining.Proofs.Shortlist.Unordered

/-! A shortlist emptied into a group. Clauses that find no room are left out, which changes nothing
about the others. -/
namespace TermMining

open Shortlist (ofCapacity)

namespace Query

section Loop

variable {ω : Type} [Weight ω]

/-- Candidates go out one by one, at most `n`, and the clause of each is offered to the group. They
are weighed by the score `best` or, if there is none yet, by that of the first one. -/
def absorb (b : Boosting ω) : Nat → Option ω → Group (Query ω) ω → Shortlist ω →
    Group (Query ω) ω × Shortlist ω
  | 0, _, g, s => (g, s)
  | n + 1, best, g, s =>
    match s.pop with
    | (none, _) => (g, s)
    | (some c, rest) =>
      let best := best.getD c.score
      let r := g.add .should (.term c.term (b.apply best c.score))
      absorb b n (some best) r.2 rest

theorem absorb_of_pop_none (b : Boosting ω) (n : Nat) (best : Option ω) (g : Group (Query ω) ω)
    {s : Shortlist ω} (h : s.pop.1 = none) : absorb b (n + 1) best g s = (g, s) := by
  rw [absorb]
  split
  · rfl
  · next hsome => simp [hsome] at h

theorem absorb_of_pop_some (b : Boosting ω) (n : Nat) (best : Option ω) (g : Group (Query ω) ω)
    {s : Shortlist ω} {c : Candidate ω} (h : s.pop.1 = some c) :
    absorb b (n + 1) best g s =
      absorb b n (some (best.getD c.score))
        (g.add .should (.term c.term (b.apply (best.getD c.score) c.score))).2 s.pop.2 := by
  rw [absorb]
  split
  · next hnone => simp [hnone] at h
  · next d rest hsome =>
    rw [hsome] at h ⊢
    rw [Option.some.inj h]

/-- Each candidate that goes out is weighed by the same score, whether or not the clauses before it
found room. -/
theorem absorb_eq (b : Boosting ω) (n : Nat) (best : Option ω) (g : Group (Query ω) ω)
    (s : Shortlist ω) :
    absorb b n best g s =
      (g.addAll ((s.popMany n).1.map fun c =>
        (.should, .term c.term (b.apply (best.getD (bestScore (s.popMany n).1)) c.score))),
        (s.popMany n).2) := by
  induction n generalizing best g s with
  | zero => rfl
  | succ n ih =>
    rcases s.pop_perm_cases with ⟨-, hnone⟩ | ⟨c, hc, -⟩
    · rw [absorb_of_pop_none b n best g hnone, Shortlist.popMany_of_pop_none hnone]
      rfl
    · rw [absorb_of_pop_some b n best g hc, Shortlist.popMany_of_pop_some hc, ih]
      rfl

/-- All at once or one by one, the same clauses go in. -/
theorem extend_eq_absorb (g : Group (Query ω) ω) (b : Boosting ω) (s : Shortlist ω) :
    extend g b s = absorb b s.size none g s := by
  rw [absorb_eq, extend, shouldClauses_eq]
  rfl

end Loop

/-- Whatever a shortlist of doubles was asked before, emptying it into a group leaves what the group
had and appends its terms best first, as far as there is room below the cap. They are weighed by the
best score of all that went out, and nothing is left in the shortlist. -/
theorem extend_appends (capacity : Int) (rs : List (Request Float))
    (hrs : ∀ c, .offer c ∈ rs → c.score.isNaN = false) (g : Group (Query Float) Float)
    (b : Boosting Float) :
    let s := ((ofCapacity capacity).serveAll rs).2
    let ranked := s.drain.1
    let best := bestScore ranked
    ranked.Perm s.heap.toList ∧
    ranked.Pairwise (fun a c => c.outranks a = false) ∧
    extend g b s = absorb b s.size none g s ∧
    (extend g b s).1 = { g with
      clauses := g.clauses ++ (ranked.take (g.maxClauses - g.clauses.length).toNat).map fun c =>
        (.should, .term c.term (match b with
          | .off => 1
          | .relative factor =>
            if Number.same best 0 then factor else factor * c.score / best)) } ∧
    (extend g b s).2.heap = #[] := by
  intro s ranked best
  obtain ⟨-, hmatches⟩ := (Shortlist.Matches.ofCapacity capacity).serveAll rs fun c hc =>
    (Number.place_ne_bot_iff c.score).2 (hrs c hc)
  obtain ⟨hperm, hranked⟩ := Shortlist.drain_perm hmatches.valid
  constructor
  · exact hperm
  constructor
  · exact hranked.imp Candidate.outranks_eq_false_of_rank_le
  constructor
  · exact extend_eq_absorb g b s
  constructor
  · unfold extend
    dsimp only
    rw [Group.addAll_eq, shouldClauses_eq, ← List.map_take]
    cases b <;> rfl
  · exact s.heap_drain

/-- One clause is there and one more finds room. The others go out all the same. -/
theorem extend_appends_full :
    let candidate (text : String) (score : Float) : Candidate Float := ⟨⟨"f", text⟩, score, 1, 1, 1⟩
    let rs : List (Request Float) :=
      [.offer (candidate "a" 1), .offer (candidate "b" 3), .offer (candidate "c" 2)]
    let g : Group (Query Float) Float :=
      { clauses := [(.must, .term ⟨"f", "d"⟩ 1)], boost := 1, maxClauses := 2 }
    let s := ((ofCapacity 3).serveAll rs).2
    (∀ c, .offer c ∈ rs → c.score.isNaN = false) ∧
      (extend g (.relative 2) s).1.clauses.length = 2 ∧ (extend g (.relative 2) s).2.heap = #[] := by
  intro candidate rs g s
  have hrs : ∀ c, .offer c ∈ rs → c.score.isNaN = false := by
    intro c hc
    simp only [rs, List.mem_cons, Request.offer.injEq, or_false, List.not_mem_nil] at hc
    rcases hc with rfl | rfl | rfl <;> decide
  obtain ⟨hperm, -, -, hclauses, hempty⟩ := extend_appends 3 rs hrs g (.relative 2)
  let cs := [candidate "a" 1, candidate "b" 3, candidate "c" 2]
  have hscored : ∀ c ∈ cs, c.IsScored := fun c hc =>
    (Number.place_ne_bot_iff c.score).2 (hrs c (by simpa [cs, rs] using hc))
  obtain ⟨r, hr, -, hdrain⟩ := Shortlist.drain_offerAll_of_room (n := 3) le_rfl hscored
  have hdrained : s.drain.1 = r := hdrain
  have hlength : s.drain.1.length = 3 := by rw [hdrained, hr.length_eq]; rfl
  constructor
  · exact hrs
  constructor
  · rw [hclauses]
    simp [g, s, hlength]
  · exact hempty

end Query
end TermMining
