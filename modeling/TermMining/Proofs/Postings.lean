import Mathlib.Algebra.Order.Ring.Int
import Mathlib.Data.List.DropRight
import TermMining.Postings
import TermMining.Proofs.OrderedMap

/-! What the postings of a term hold after any history of additions and removals. -/
namespace TermMining

def Posting.total (l : List Posting) : Posting where
  frequency := (l.map Posting.frequency).sum
  positions := l.flatMap Posting.positions

namespace Postings

inductive Change where
  | add (doc : String) (p : Posting)
  | remove (doc : String)

namespace Change

def added? (doc : String) : Change → Option Posting
  | add d p => if d = doc then some p else none
  | remove _ => none

def removes (doc : String) : Change → Bool
  | add _ _ => false
  | remove d => d = doc

end Change

def change (ps : Postings) : Change → Postings
  | .add doc p => ps.add doc p
  | .remove doc => (ps.remove doc).2

def ofHistory (h : List Change) : Postings := h.foldl change .empty

/-- What was added for a document since it was last taken out, oldest first. -/
def addedSince (h : List Change) (doc : String) : List Posting :=
  (h.rtakeWhile fun c => !c.removes doc).filterMap (·.added? doc)

/-- The step is the first at which the document was added since it was last taken out. -/
structure Enters (h : List Change) (i : Nat) (doc : String) : Prop where
  adds : ∃ p, h[i]? = some (.add doc p)
  stays : .remove doc ∉ h.drop (i + 1)
  first : addedSince (h.take i) doc = []

/-- The documents are those that entered and were not taken out, in the order of their entries. -/
structure LinesUp (h : List Change) (docs : List String) : Prop where
  entered : ∀ doc, doc ∈ docs ↔ ∃ i, Enters h i doc
  ordered : docs.Pairwise fun a b => ∀ i j, Enters h i a → Enters h j b → i < j

theorem ofHistory_concat (h : List Change) (c : Change) :
    ofHistory (h ++ [c]) = (ofHistory h).change c := List.foldl_concat ..

theorem addedSince_add (h : List Change) (d doc : String) (p : Posting) :
    addedSince (h ++ [.add d p]) doc =
      if d = doc then addedSince h doc ++ [p] else addedSince h doc := by
  unfold addedSince
  rw [List.rtakeWhile_concat_pos _ _ _ rfl, List.filterMap_append]
  split_ifs with hd <;> simp [Change.added?, hd]

theorem addedSince_remove (h : List Change) (d doc : String) :
    addedSince (h ++ [.remove d]) doc = if d = doc then [] else addedSince h doc := by
  unfold addedSince
  rw [List.rtakeWhile_concat]
  by_cases hd : d = doc <;> simp [Change.removes, Change.added?, hd]

theorem find?_change_add (ps : Postings) (d : String) (p : Posting) (doc : String) :
    (ps.change (.add d p)).find? doc =
      if d = doc then some (.total ((ps.find? doc).toList ++ [p])) else ps.find? doc := by
  change (OrderedMap.update ps d _).find? doc = _
  rw [OrderedMap.find?_update]
  by_cases hd : doc = d
  · subst hd
    rw [if_pos rfl, if_pos rfl]
    cases ps.find? doc <;> simp [Posting.total]
  · rw [if_neg hd, if_neg (Ne.symm hd)]

theorem find?_change_remove (ps : Postings) (d doc : String) :
    (ps.change (.remove d)).find? doc = if d = doc then none else ps.find? doc := by
  change (OrderedMap.erase ps d).find? doc = _
  rw [OrderedMap.find?_erase]
  simp only [eq_comm]

theorem total_total_append (l l' : List Posting) :
    Posting.total (Posting.total l :: l') = Posting.total (l ++ l') := by
  simp [Posting.total]

/-- The posting of a document is the total of what was added for it since it was last taken out. -/
theorem find?_ofHistory (h : List Change) (doc : String) :
    (ofHistory h).find? doc =
      if addedSince h doc = [] then none else some (.total (addedSince h doc)) := by
  induction h using List.reverseRecOn with
  | nil => rfl
  | append_singleton h c ih =>
    rw [ofHistory_concat]
    cases c with
    | add d p =>
      rw [find?_change_add, ih, addedSince_add]
      by_cases hd : d = doc
      · by_cases hnone : addedSince h doc = [] <;> simp [hd, hnone, total_total_append]
      · rw [if_neg hd, if_neg hd]
    | remove d =>
      rw [find?_change_remove, ih, addedSince_remove]
      by_cases hd : d = doc
      · rw [if_pos hd, if_pos hd, if_pos rfl]
      · rw [if_neg hd, if_neg hd]

theorem mem_keys_ofHistory (h : List Change) (doc : String) :
    doc ∈ (ofHistory h).keys ↔ addedSince h doc ≠ [] := by
  rw [OrderedMap.mem_keys_iff, find?_ofHistory]
  by_cases hnone : addedSince h doc = [] <;> simp [hnone]

namespace Enters

variable {h : List Change} {i : Nat} {doc : String}

theorem lt (he : Enters h i doc) : i < h.length := by
  obtain ⟨p, hp⟩ := he.adds
  exact (List.getElem?_eq_some_iff.1 hp).1

/-- What comes later leaves the document in its place unless it takes it out. -/
theorem concat (he : Enters h i doc) {c : Change} (hc : c ≠ .remove doc) :
    Enters (h ++ [c]) i doc := by
  have hi := he.lt
  refine ⟨?_, ?_, ?_⟩
  · rw [List.getElem?_append_left hi]
    exact he.adds
  · rw [List.drop_append_of_le_length hi, List.mem_append, List.mem_singleton]
    exact not_or.2 ⟨he.stays, Ne.symm hc⟩
  · rw [List.take_append_of_le_length hi.le]
    exact he.first

theorem last (hnone : addedSince h doc = []) (p : Posting) :
    Enters (h ++ [.add doc p]) h.length doc where
  adds := ⟨p, List.getElem?_concat_length⟩
  stays := by
    rw [List.drop_eq_nil_of_le (by simp)]
    exact List.not_mem_nil
  first := by rwa [List.take_left]

theorem lt_of_concat {c : Change} (he : Enters (h ++ [c]) i doc)
    (hc : ∀ p, c = .add doc p → addedSince h doc ≠ []) : i < h.length := by
  obtain ⟨p, hp⟩ := he.adds
  have hle : i < h.length + 1 := by simpa using he.lt
  refine lt_of_le_of_ne (Nat.le_of_lt_succ hle) ?_
  rintro rfl
  rw [List.getElem?_concat_length] at hp
  exact hc p (Option.some.inj hp) (by simpa using he.first)

theorem of_concat {c : Change} (he : Enters (h ++ [c]) i doc) (hi : i < h.length) :
    Enters h i doc ∧ c ≠ .remove doc := by
  obtain ⟨hadds, hstays, hfirst⟩ := he
  rw [List.getElem?_append_left hi] at hadds
  rw [List.drop_append_of_le_length hi, List.mem_append, List.mem_singleton, not_or] at hstays
  rw [List.take_append_of_le_length hi.le] at hfirst
  exact ⟨⟨hadds, hstays.1, hfirst⟩, Ne.symm hstays.2⟩

end Enters

/-- A further change lets a document in only if it adds to one that is not there. -/
theorem enters_concat_iff {h : List Change} {c : Change} {doc : String}
    (hc : ∀ p, c = .add doc p → addedSince h doc ≠ []) (i : Nat) :
    Enters (h ++ [c]) i doc ↔ Enters h i doc ∧ c ≠ .remove doc :=
  ⟨fun he => he.of_concat (he.lt_of_concat hc), fun he => he.1.concat he.2⟩

/-- A document has entered exactly if something was added since it was last taken out. -/
theorem exists_enters_iff (h : List Change) (doc : String) :
    (∃ i, Enters h i doc) ↔ addedSince h doc ≠ [] := by
  induction h using List.reverseRecOn with
  | nil =>
    constructor
    · rintro ⟨i, hi⟩
      exact absurd hi.lt (Nat.not_lt_zero i)
    · exact fun hne => absurd rfl hne
  | append_singleton h c ih =>
    cases c with
    | add d p =>
      rw [addedSince_add]
      by_cases hd : d = doc
      · subst hd
        rw [if_pos rfl]
        refine iff_of_true ?_ (List.append_ne_nil_of_right_ne_nil _ (List.cons_ne_nil _ _))
        by_cases hnone : addedSince h d = []
        · exact ⟨h.length, .last hnone p⟩
        · obtain ⟨i, hi⟩ := ih.2 hnone
          exact ⟨i, hi.concat nofun⟩
      · have hc : ∀ q, Change.add d p = .add doc q → addedSince h doc ≠ [] :=
          fun _ heq => absurd (Change.add.inj heq).1 hd
        rw [if_neg hd, ← ih]
        exact exists_congr fun i => (enters_concat_iff hc i).trans (and_iff_left nofun)
    | remove d =>
      have hc : ∀ q, Change.remove d = .add doc q → addedSince h doc ≠ [] := fun _ => nofun
      rw [addedSince_remove]
      by_cases hd : d = doc
      · subst hd
        rw [if_pos rfl]
        refine iff_of_false ?_ (not_not_intro rfl)
        rintro ⟨i, hi⟩
        exact ((enters_concat_iff hc i).1 hi).2 rfl
      · have hne : Change.remove d ≠ .remove doc := fun heq => hd (Change.remove.inj heq)
        rw [if_neg hd, ← ih]
        exact exists_congr fun i => (enters_concat_iff hc i).trans (and_iff_left hne)

/-- Documents that are there keep their order whatever the change. -/
theorem ordered_concat {h : List Change} {docs : List String}
    (hdocs : docs.Pairwise fun a b => ∀ i j, Enters h i a → Enters h j b → i < j)
    (hheld : ∀ doc ∈ docs, addedSince h doc ≠ []) (c : Change) :
    docs.Pairwise fun a b => ∀ i j, Enters (h ++ [c]) i a → Enters (h ++ [c]) j b → i < j := by
  apply hdocs.imp_of_mem
  intro a b ha hb hab i j hi hj
  exact hab i j ((enters_concat_iff (fun _ _ => hheld a ha) i).1 hi).1
    ((enters_concat_iff (fun _ _ => hheld b hb) j).1 hj).1

theorem keys_change_add (ps : Postings) (d : String) (p : Posting) :
    (ps.change (.add d p)).keys = if d ∈ ps.keys then ps.keys else ps.keys ++ [d] := by
  simp only [OrderedMap.mem_keys_iff, ← OrderedMap.contains_eq_isSome]
  exact ps.keys_insert d _

theorem keys_change_remove (ps : Postings) (d : String) :
    (ps.change (.remove d)).keys = ps.keys.filter (· ≠ d) := by
  change (ps.entries.filter _).map Prod.fst = (ps.entries.map Prod.fst).filter _
  rw [List.filter_map]
  rfl

theorem linesUp_keys (h : List Change) : LinesUp h (ofHistory h).keys := by
  refine ⟨fun doc => (mem_keys_ofHistory h doc).trans (exists_enters_iff h doc).symm, ?_⟩
  induction h using List.reverseRecOn with
  | nil => exact List.Pairwise.nil
  | append_singleton h c ih =>
    have hheld : ∀ doc ∈ (ofHistory h).keys, addedSince h doc ≠ [] :=
      fun doc => (mem_keys_ofHistory h doc).1
    have hstays := ordered_concat ih hheld c
    rw [ofHistory_concat]
    cases c with
    | add d p =>
      rw [keys_change_add]
      by_cases hd : d ∈ (ofHistory h).keys
      · rwa [if_pos hd]
      · -- what comes in enters at the last step, and all that are there entered before
        rw [if_neg hd]
        refine List.pairwise_append.2 ⟨hstays, List.pairwise_singleton _ _, ?_⟩
        intro a ha b hb i j hi hj
        obtain rfl := List.mem_singleton.1 hb
        have hlt : i < h.length := hi.lt_of_concat fun _ _ => hheld a ha
        refine hlt.trans_le (Nat.le_of_not_lt fun hjlt => hd ?_)
        exact (mem_keys_ofHistory h b).2 ((exists_enters_iff h b).1 ⟨j, (hj.of_concat hjlt).1⟩)
    | remove d =>
      rw [keys_change_remove]
      exact hstays.filter _

/-- Postings account for their history. They hold the documents of which something was added since
they were last taken out, each with the total of what was added since, in the order of their
entries. Taking a document out says whether it was there, and leaves all others as they are. -/
theorem ofHistory_accounts (h : List Change) :
    (∀ doc, (ofHistory h).find? doc =
      if addedSince h doc = [] then none else some (.total (addedSince h doc))) ∧
    LinesUp h (ofHistory h).keys ∧
    ∀ doc, (ofHistory h).remove doc =
      (decide (addedSince h doc ≠ []), (ofHistory h).filter fun d _ => d ≠ doc) := by
  refine ⟨find?_ofHistory h, linesUp_keys h, fun doc => ?_⟩
  have hheld : (ofHistory h).contains doc = decide (addedSince h doc ≠ []) := by
    rw [OrderedMap.contains_eq_isSome, Bool.eq_iff_iff, ← OrderedMap.mem_keys_iff,
      mem_keys_ofHistory, decide_eq_true_iff]
  exact Prod.ext hheld rfl

example :
    let h : List Change := [.add "x" ⟨0, []⟩, .add "y" ⟨1, [2]⟩, .remove "x", .add "x" ⟨0, [5]⟩]
    (ofHistory h).entries = [("y", ⟨1, [2]⟩), ("x", ⟨0, [5]⟩)] := by decide

end Postings
end TermMining
