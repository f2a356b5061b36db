/-! Finite sets of strings, kept as ascending lists, so that equal sets are equal values. -/
namespace TermMining

structure StringSet where
  members : List String
  ascending : members.Pairwise (· < ·)
  deriving DecidableEq

namespace StringSet

def empty : StringSet := ⟨[], List.Pairwise.nil⟩

instance : EmptyCollection StringSet := ⟨empty⟩

instance : Inhabited StringSet := ⟨empty⟩

def insertInto (s : String) : List String → List String
  | [] => [s]
  | t :: ts => if s < t then s :: t :: ts else if t < s then t :: insertInto s ts else t :: ts

theorem mem_insertInto {s t : String} {l : List String} :
    t ∈ insertInto s l ↔ t = s ∨ t ∈ l := by
  induction l with
  | nil => simp [insertInto]
  | cons u us ih =>
    rw [insertInto]
    split
    · simp
    · split
      · simp only [List.mem_cons, ih]
        exact or_left_comm
      · next h₁ h₂ =>
        obtain rfl : u = s := String.le_antisymm (String.not_lt.1 h₁) (String.not_lt.1 h₂)
        simp

theorem pairwise_insertInto {s : String} {l : List String} (h : l.Pairwise (· < ·)) :
    (insertInto s l).Pairwise (· < ·) := by
  induction l with
  | nil => simp [insertInto]
  | cons u us ih =>
    obtain ⟨hu, hus⟩ := List.pairwise_cons.1 h
    rw [insertInto]
    split
    · next hs =>
      refine List.pairwise_cons.2 ⟨fun t ht => ?_, h⟩
      rcases List.mem_cons.1 ht with rfl | ht
      · exact hs
      · exact String.lt_trans hs (hu t ht)
    · split
      · next hs =>
        refine List.pairwise_cons.2 ⟨fun t ht => ?_, ih hus⟩
        rcases mem_insertInto.1 ht with rfl | ht
        · exact hs
        · exact hu t ht
      · exact h

def insert (s : String) (set : StringSet) : StringSet :=
  ⟨insertInto s set.members, pairwise_insertInto set.ascending⟩

def ofList (l : List String) : StringSet := l.foldr insert empty

def contains (set : StringSet) (s : String) : Bool := decide (s ∈ set.members)

def isEmpty (set : StringSet) : Bool := set.members.isEmpty

instance : Membership String StringSet := ⟨fun set s => s ∈ set.members⟩

instance (s : String) (set : StringSet) : Decidable (s ∈ set) :=
  inferInstanceAs (Decidable (s ∈ set.members))

@[simp] theorem mem_ofList {s : String} {l : List String} : s ∈ ofList l ↔ s ∈ l := by
  induction l with
  | nil => rfl
  | cons t ts ih =>
    change s ∈ insertInto t (ofList ts).members ↔ _
    rw [mem_insertInto, List.mem_cons]
    exact or_congr_right ih

theorem contains_iff {set : StringSet} {s : String} : set.contains s ↔ s ∈ set := by
  simp [contains, Membership.mem]

end StringSet
end TermMining
