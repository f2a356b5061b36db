import TermMining.Proofs.Query

/-! Clauses offered to a group, some with a report and some on pain of a fault. An offer that finds
no room changes nothing, however it is answered. -/
namespace TermMining

variable {χ ω : Type}

/-- A clause offered to a group. -/
inductive Offer (χ : Type) where
  /-- It is to be reported whether the clause went in. -/
  | report (occur : Occur) (q : χ)
  /-- That the clause does not go in is a fault. -/
  | insist (occur : Occur) (q : χ)

inductive Outcome where
  | reported (admitted : Bool)
  | insisted (r : Except Fault Unit)

namespace Offer

def clause : Offer χ → Occur × χ
  | report occur q => (occur, q)
  | insist occur q => (occur, q)

/-- The answer to an offer under a cap, by whether the clause went in. -/
def outcome (cap : Int) (admitted : Bool) : Offer χ → Outcome
  | report _ _ => .reported admitted
  | insist _ _ => .insisted (if admitted then .ok () else .error (.tooManyClauses cap))

end Offer

namespace Group

/-- Answers an offer. The group is what the attempt to append the clause has left, also where that
is a fault. -/
def receive (g : Group χ ω) : Offer χ → Outcome × Group χ ω
  | .report occur q => (.reported (g.add occur q).1, (g.add occur q).2)
  | .insist occur q => (.insisted ((g.add? occur q).map fun _ => ()), (g.add occur q).2)

def receiveAll (g : Group χ ω) : List (Offer χ) → List Outcome × Group χ ω
  | [] => ([], g)
  | o :: offers =>
    let later := (g.receive o).2.receiveAll offers
    ((g.receive o).1 :: later.1, later.2)

variable {g : Group χ ω}

theorem receive_of_room (hroom : g.clauses.length < g.maxClauses) (o : Offer χ) :
    g.receive o =
      (o.outcome g.maxClauses true, { g with clauses := g.clauses ++ [o.clause] }) := by
  cases o with
  | report occur q =>
    rw [receive, add_of_room hroom]
    rfl
  | insist occur q =>
    rw [receive, add?, add_of_room hroom]
    rfl

theorem receive_of_full (hfull : g.maxClauses ≤ g.clauses.length) (o : Offer χ) :
    g.receive o = (o.outcome g.maxClauses false, g) := by
  cases o with
  | report occur q =>
    rw [receive, add_of_full hfull]
    rfl
  | insist occur q =>
    rw [receive, add?, add_of_full hfull]
    rfl

/-- What is left after an offer is what is left after the attempt to append its clause. -/
theorem receive_snd (g : Group χ ω) (o : Offer χ) :
    (g.receive o).2 = (g.add o.clause.1 o.clause.2).2 := by
  cases o <;> rfl

theorem receiveAll_snd (g : Group χ ω) (offers : List (Offer χ)) :
    (g.receiveAll offers).2 = g.addAll (offers.map Offer.clause) := by
  induction offers generalizing g with
  | nil => rfl
  | cons o offers ih =>
    rw [receiveAll, ih, receive_snd]
    rfl

/-- An offer is refused exactly if as many clauses as the cap allows are there or came before it. -/
theorem receiveAll_fst (g : Group χ ω) (offers : List (Offer χ)) :
    (g.receiveAll offers).1 =
      offers.mapIdx fun i o => o.outcome g.maxClauses (g.clauses.length + i < g.maxClauses) := by
  induction offers generalizing g with
  | nil => rfl
  | cons o offers ih =>
    rw [receiveAll, ih, List.mapIdx_cons]
    by_cases hroom : g.clauses.length < g.maxClauses
    · rw [receive_of_room hroom]
      simp [hroom, Int.add_assoc, Int.add_comm 1]
    · have hfull : g.maxClauses ≤ g.clauses.length := Int.not_lt.mp hroom
      have hlater : ∀ i : Nat, ¬(g.clauses.length : Int) + i < g.maxClauses ∧
          ¬(g.clauses.length : Int) + (i + 1) < g.maxClauses := by omega
      rw [receive_of_full hfull]
      simp [hroom, hlater]

theorem receiveAll_concat (g : Group χ ω) (offers : List (Offer χ)) (o : Offer χ) :
    g.receiveAll (offers ++ [o]) =
      ((g.receiveAll offers).1 ++ [((g.receiveAll offers).2.receive o).1],
        ((g.receiveAll offers).2.receive o).2) := by
  induction offers generalizing g with
  | nil => rfl
  | cons first offers ih =>
    rw [List.cons_append, receiveAll, ih]
    rfl

/-- Of any clauses offered to a group that has none, in whatever ways, those go in that are offered
first, in their order, as many as the cap allows. The others are refused, each in its own way, and
whatever was offered before, an offer is refused exactly if the cap is reached by then, which leaves
the group as it was. -/
theorem receiveAll_within_cap (boost : ω) (minimum cap : Int) (offers : List (Offer χ)) :
    let empty : Group χ ω := { boost, minimumShouldMatch := minimum, maxClauses := cap }
    let g := (empty.receiveAll offers).2
    empty.receiveAll offers =
      (offers.mapIdx fun i o => o.outcome cap (i < cap),
        { empty with clauses := (offers.map Offer.clause).take cap.toNat }) ∧
    ∀ o, empty.receiveAll (offers ++ [o]) =
      ((empty.receiveAll offers).1 ++ [o.outcome cap (g.clauses.length < cap)],
        if g.clauses.length < cap then { g with clauses := g.clauses ++ [o.clause] } else g) := by
  intro empty g
  have hg : g = { empty with clauses := (offers.map Offer.clause).take cap.toNat } := by
    have hall := receiveAll_snd empty offers
    rw [addAll_eq] at hall
    simpa [empty] using hall
  have hcap : g.maxClauses = cap := by rw [hg]
  constructor
  · refine Prod.ext ?_ hg
    rw [receiveAll_fst]
    simp [empty]
  · intro o
    have hlast := receiveAll_concat empty offers o
    change _ = (_ ++ [(g.receive o).1], (g.receive o).2) at hlast
    rw [hlast]
    by_cases hroom : g.clauses.length < cap
    · rw [receive_of_room (hcap ▸ hroom), hcap, decide_eq_true hroom, if_pos hroom]
    · rw [receive_of_full (hcap ▸ Int.not_lt.mp hroom), hcap, decide_eq_false hroom, if_neg hroom]

example :
    let g : Group Char Unit := { boost := (), maxClauses := 1 }
    let r := g.receiveAll [.insist .must 'a', .report .should 'b', .insist .mustNot 'c']
    r.2.clauses = [(.must, 'a')] ∧
      r.1 = [.insisted (.ok ()), .reported false, .insisted (.error (.tooManyClauses 1))] :=
  ⟨rfl, rfl⟩

end Group
end TermMining
