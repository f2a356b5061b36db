import TermMining.Candidate
import TermMining.Order.Heap
import TermMining.Order.Sort

/-! A shortlist keeps the best of the candidates offered to it, up to its capacity. They are held in
a heap with the worst one on top; taking the best sorts the heap once, which leaves it a heap. -/
namespace TermMining

structure Shortlist (ω : Type) where
  capacity : Nat
  heap : Array (Candidate ω) := #[]
  /-- The heap is known to be in ascending order. -/
  sorted : Bool := true

namespace Shortlist

variable {ω : Type}

/-- A negative capacity is none. -/
def ofCapacity (n : Int) : Shortlist ω := { capacity := n.toNat }

def size (s : Shortlist ω) : Nat := s.heap.size

def worst? (s : Shortlist ω) : Option (Candidate ω) := s.heap[0]?

variable [Weight ω]

/-- Takes a candidate in while there is room, else in place of the worst one if it outranks
that; says whether it was taken. -/
def offer (s : Shortlist ω) (c : Candidate ω) : Bool × Shortlist ω :=
  if s.heap.size < s.capacity then
    (true, { s with heap := Order.Heap.push Candidate.before s.heap c, sorted := false })
  else if s.worst?.any c.outranks then
    (true, { s with heap := Order.Heap.replaceFirst Candidate.before s.heap c, sorted := false })
  else (false, s)

def offerAll (s : Shortlist ω) (cs : List (Candidate ω)) : Shortlist ω :=
  cs.foldl (fun s c => (s.offer c).2) s

/-- The same candidates, in ascending order. -/
def arranged (s : Shortlist ω) : Shortlist ω :=
  if s.sorted then s
  else
    { s with
      heap := (Order.sort Candidate.before s.heap.toList).toArray
      sorted := true }

def pop (s : Shortlist ω) : Option (Candidate ω) × Shortlist ω :=
  let s := s.arranged
  (s.heap.back?, { s with heap := s.heap.pop })

def popMany : Shortlist ω → Nat → List (Candidate ω) × Shortlist ω
  | s, 0 => ([], s)
  | s, n + 1 =>
    match s.pop with
    | (none, _) => ([], s)
    | (some c, rest) =>
      let more := rest.popMany n
      (c :: more.1, more.2)

def drain (s : Shortlist ω) : List (Candidate ω) × Shortlist ω := s.popMany s.size

/-- All candidates, best first, while the shortlist keeps them. -/
def toList (s : Shortlist ω) : List (Candidate ω) :=
  Order.sortDescending Candidate.before s.heap.toList

end Shortlist
end TermMining
