import Mathlib.Data.List.TakeWhile
import TermMining.Pattern

/-! Runs of a class of characters, and runs joined by single separators. Repetition takes them as
long as they can be. -/
namespace TermMining.Pattern

variable {p sep : Char → Bool}

/-- One or more characters of a class. -/
structure IsRun (p : Char → Bool) (r : List Char) : Prop where
  ne_nil : r ≠ []
  all : ∀ c ∈ r, p c = true

/-- So many runs of a class, with a single separator between any two. -/
inductive Joined (p sep : Char → Bool) : Nat → List Char → Prop
  | run {r : List Char} (hr : IsRun p r) : Joined p sep 1 r
  | join {n : Nat} {s r : List Char} {d : Char} (hs : Joined p sep n s) (hd : sep d = true)
      (hr : IsRun p r) : Joined p sep (n + 1) (s ++ d :: r)

/-- The text goes on with a run. -/
def RunsOn (p : Char → Bool) (s : List Char) : Prop := ∃ c more, s = c :: more ∧ p c = true

theorem runsOn_of_head? {s : List Char} (h : ∃ c, s.head? = some c ∧ p c = true) : RunsOn p s := by
  obtain ⟨c, hc, hp⟩ := h
  obtain ⟨more, rfl⟩ := List.head?_eq_some_iff.1 hc
  exact ⟨c, more, rfl, hp⟩

def JoinsOn (p sep : Char → Bool) (s : List Char) : Prop :=
  ∃ d more, s = d :: more ∧ sep d = true ∧ RunsOn p more

/-- What stands in front of a place and what stands behind it are both of the class. -/
def Between (p : Char → Bool) (before after : List Char) : Prop :=
  (∃ b, before.getLast? = some b ∧ p b = true) ∧ ∃ a, after.head? = some a ∧ p a = true

/-- A character of a text with a middle one stands in front of that, is it, or stands behind it. -/
theorem append_cons_cases {s r before after : List Char} {c d : Char}
    (h : s ++ d :: r = before ++ c :: after) :
    (∃ more, s = before ++ c :: more ∧ after = more ++ d :: r) ∨
      (s = before ∧ d = c ∧ r = after) ∨
        ∃ more, before = s ++ d :: more ∧ r = more ++ c :: after := by
  rcases List.append_eq_append_iff.1 h with
    ⟨_ | ⟨x, more⟩, rfl, hmore⟩ | ⟨_ | ⟨x, more⟩, rfl, hmore⟩
  · obtain ⟨rfl, rfl⟩ := List.cons.inj hmore
    exact Or.inr (Or.inl ⟨(List.append_nil s).symm, rfl, rfl⟩)
  · obtain ⟨rfl, rfl⟩ := List.cons.inj hmore
    exact Or.inr (Or.inr ⟨more, rfl, rfl⟩)
  · obtain ⟨rfl, rfl⟩ := List.cons.inj hmore
    exact Or.inr (Or.inl ⟨List.append_nil before, rfl, rfl⟩)
  · obtain ⟨rfl, rfl⟩ := List.cons.inj hmore
    exact Or.inl ⟨more, rfl, rfl⟩

theorem IsRun.exists_head {r : List Char} (h : IsRun p r) : ∃ c, r.head? = some c ∧ p c = true := by
  obtain ⟨c, more, rfl⟩ := List.exists_cons_of_ne_nil h.ne_nil
  exact ⟨c, rfl, h.all c List.mem_cons_self⟩

theorem IsRun.exists_last {r : List Char} (h : IsRun p r) :
    ∃ c, r.getLast? = some c ∧ p c = true :=
  ⟨r.getLast h.ne_nil, List.getLast?_eq_some_getLast h.ne_nil, h.all _ (List.getLast_mem h.ne_nil)⟩

namespace Joined

variable {n : Nat} {s : List Char} (h : Joined p sep n s)
include h

theorem exists_head : ∃ c, s.head? = some c ∧ p c = true := by
  induction h with
  | run hr => exact hr.exists_head
  | join hs hd hr ih =>
    obtain ⟨c, hc, hp⟩ := ih
    exact ⟨c, by rw [List.head?_append, hc]; rfl, hp⟩

theorem exists_last : ∃ c, s.getLast? = some c ∧ p c = true := by
  cases h with
  | run hr => exact hr.exists_last
  | join hs hd hr =>
    obtain ⟨c, hc, hp⟩ := hr.exists_last
    exact ⟨c, by rw [List.getLast?_append, List.getLast?_cons, hc]; rfl, hp⟩

/-- A separator stands only between two characters of the class. -/
theorem class_or_between {before after : List Char} {c : Char} (hc : s = before ++ c :: after) :
    p c = true ∨ sep c = true ∧ Between p before after := by
  induction h generalizing before after with
  | run hr => exact Or.inl (hr.all c (by simp [hc]))
  | join hs hd hr ih =>
    rcases append_cons_cases hc with ⟨more, rfl, rfl⟩ | ⟨rfl, rfl, rfl⟩ | ⟨more, rfl, rfl⟩
    · refine (ih rfl).imp_right ?_
      rintro ⟨hsep, hbefore, a, ha, hp⟩
      exact ⟨hsep, hbefore, a, by rw [List.head?_append, ha]; rfl, hp⟩
    · exact Or.inr ⟨hd, hs.exists_last, hr.exists_head⟩
    · exact Or.inl (hr.all c (by simp))

theorem class_or_sep : ∀ c ∈ s, p c = true ∨ sep c = true := by
  intro c hc
  obtain ⟨before, after, heq⟩ := List.append_of_mem hc
  exact (h.class_or_between heq).imp_right And.left

theorem exists_sep (hn : 2 ≤ n) : ∃ d ∈ s, sep d = true := by
  cases h with
  | run => omega
  | join hs hd hr => exact ⟨_, by simp, hd⟩

end Joined

theorem not_runsOn_dropWhile (p : Char → Bool) (s : List Char) : ¬RunsOn p (s.dropWhile p) := by
  rintro ⟨c, more, hs, hp⟩
  have hhead := List.head?_dropWhile_not p s
  rw [hs] at hhead
  exact Bool.false_ne_true (hhead.symm.trans hp)

theorem split?_run_cons (p : Char → Bool) (c : Char) (s : List Char) :
    (run p).split? (c :: s) =
      if p c then some (c :: s.takeWhile p, s.dropWhile p) else none := by
  by_cases hc : p c = true <;> simp [run, split?, hc]

theorem not_runsOn_of_split? {s : List Char} (h : (run p).split? s = none) : ¬RunsOn p s := by
  rintro ⟨c, more, rfl, hc⟩
  rw [split?_run_cons, if_pos hc] at h
  cases h

theorem isRun_of_split? {s r rest : List Char} (h : (run p).split? s = some (r, rest)) :
    IsRun p r ∧ ¬RunsOn p rest := by
  cases s with
  | nil => cases h
  | cons c s =>
    rw [split?_run_cons] at h
    split at h
    · next hc =>
      cases h
      have hall : ∀ d ∈ c :: s.takeWhile p, p d = true :=
        List.forall_mem_cons.2 ⟨hc, fun d hd => List.mem_takeWhile_imp hd⟩
      exact ⟨⟨List.cons_ne_nil _ _, hall⟩, not_runsOn_dropWhile p s⟩
    · cases h

def group (p sep : Char → Bool) : Pattern := seq (one sep) (run p)

theorem split?_group_cons (p sep : Char → Bool) (d : Char) (s : List Char) :
    (group p sep).split? (d :: s) =
      if sep d then ((run p).split? s).map fun a => (d :: a.1, a.2) else none := by
  by_cases hd : sep d = true
  · rw [if_pos hd, group, split?, split?, if_pos hd]
    change ((run p).split? s).bind _ = _
    cases (run p).split? s <;> rfl
  · rw [if_neg hd, group, split?, split?, if_neg hd]
    rfl

theorem not_joinsOn_of_split? {s : List Char} (h : (group p sep).split? s = none) :
    ¬JoinsOn p sep s := by
  rintro ⟨d, more, rfl, hd, hmore⟩
  rw [split?_group_cons, if_pos hd, Option.map_eq_none_iff] at h
  exact not_runsOn_of_split? h hmore

theorem isRun_of_split?_group {s taken rest : List Char}
    (h : (group p sep).split? s = some (taken, rest)) :
    ∃ d r, taken = d :: r ∧ sep d = true ∧ IsRun p r ∧ ¬RunsOn p rest := by
  cases s with
  | nil => cases h
  | cons d s =>
    rw [split?_group_cons] at h
    split at h
    · next hd =>
      obtain ⟨⟨r, rest'⟩, hr, heq⟩ := Option.map_eq_some_iff.1 h
      obtain ⟨rfl, rfl⟩ := Prod.mk.inj heq
      exact ⟨d, r, rfl, hd, isRun_of_split? hr⟩
    · cases h

/-- Behind runs, repetition joins on as many more as there are, and leaves nothing to join on. -/
theorem exists_iterate_group (sep : Char → Bool) {s : List Char} (h : ¬RunsOn p s) :
    ∃ k taken rest, iterate (group p sep).split? s = (taken, rest) ∧
      (∀ n u, Joined p sep n u → Joined p sep (n + k) (u ++ taken)) ∧
      ¬RunsOn p rest ∧ ¬JoinsOn p sep rest := by
  fun_induction iterate (group p sep).split? s with
  | case1 s hs =>
    exact ⟨0, [], s, rfl, fun n u hu => by rwa [List.append_nil], h, not_joinsOn_of_split? hs⟩
  | case2 s taken rest hs hlt _ ih =>
    obtain ⟨d, r, rfl, hd, hr, hno⟩ := isRun_of_split?_group hs
    obtain ⟨k, more, left, hmore, hjoined, hstop⟩ := ih hno
    refine ⟨k + 1, d :: r ++ more, left, ?_, fun n u hu => ?_, hstop⟩
    · exact congrArg (fun a : Split => (d :: r ++ a.1, a.2)) hmore
    · have hu' := hjoined (n + 1) (u ++ d :: r) (.join hu hd hr)
      rwa [List.append_assoc, Nat.add_assoc, Nat.add_comm 1] at hu'
  | case3 s taken rest hs hge =>
    obtain ⟨d, r, rfl, -⟩ := isRun_of_split?_group hs
    have hlen : (d :: r ++ rest).length = s.length := congrArg List.length (append_of_split? hs)
    rw [List.length_append, List.length_cons] at hlen
    omega

theorem split?_seq_eq_some {l r : Pattern} {s : List Char} {a : Split}
    (h : (seq l r).split? s = some a) :
    ∃ b c, l.split? s = some b ∧ r.split? b.2 = some c ∧ a = (b.1 ++ c.1, c.2) := by
  obtain ⟨b, hb, hmore⟩ := Option.bind_eq_some_iff.1 h
  obtain ⟨c, hc, ha⟩ := Option.bind_eq_some_iff.1 hmore
  exact ⟨b, c, hb, hc, (Option.some.inj ha).symm⟩

def joined (p sep : Char → Bool) : Pattern := seq (run p) (repeated (group p sep))

theorem not_runsOn_of_split?_joined {s : List Char} (h : (joined p sep).split? s = none) :
    ¬RunsOn p s := by
  cases hrun : (run p).split? s with
  | none => exact not_runsOn_of_split? hrun
  | some a =>
    change ((run p).split? s).bind _ = none at h
    rw [hrun] at h
    cases h

theorem joined_of_split? {s w rest : List Char} (h : (joined p sep).split? s = some (w, rest)) :
    (∃ n, Joined p sep n w) ∧ ¬RunsOn p rest ∧ ¬JoinsOn p sep rest := by
  obtain ⟨⟨r, behind⟩, c, hr, hc, heq⟩ := split?_seq_eq_some h
  obtain ⟨hrun, hno⟩ := isRun_of_split? hr
  obtain ⟨k, taken, left, hmore, hjoined, hstop⟩ := exists_iterate_group sep hno
  obtain rfl : c = (taken, left) := (Option.some.inj hc).symm.trans hmore
  obtain ⟨rfl, rfl⟩ := Prod.mk.inj heq
  exact ⟨⟨1 + k, hjoined 1 r (.run hrun)⟩, hstop⟩

end TermMining.Pattern
