import TermMining.Proofs.Pattern.Word

/-! Matching that comes back to the other choices when what follows does not match. For the patterns
in use it first finds the match that is found without coming back. -/
namespace TermMining

/-- A match with more of the text in front of it. -/
def Split.behind (front : List Char) (a : Split) : Split := (front ++ a.1, a.2)

namespace Pattern

/-- The beginnings of a text that are all of a class, longest first. -/
def stretches (p : Char → Bool) : List Char → List Split
  | [] => [([], [])]
  | c :: s =>
    if p c then (stretches p s).map (·.behind [c]) ++ [([], c :: s)] else [([], c :: s)]

/-- Steps in a row in all ways, those that step on before the one that stops. -/
def iterations (steps : List Char → List Split) (s : List Char) : List Split :=
  ((steps s).flatMap fun a =>
    if a.2.length < s.length then (iterations steps a.2).map (·.behind a.1) else [([], s)]) ++
    [([], s)]
termination_by s.length

/-- All matches at the start of a text, in the order in which they are tried. -/
def attempts : Pattern → List Char → List Split
  | nothing, s => [([], s)]
  | one _, [] => []
  | one p, c :: s => if p c then [([c], s)] else []
  | many p, s => stretches p s
  | seq l r, s => (l.attempts s).flatMap fun a => (r.attempts a.2).map (·.behind a.1)
  | choice l r, s => l.attempts s ++ r.attempts s
  | repeated p, s => iterations p.attempts s

/-- The first match that is tried is taken. -/
def TakesFirst (p : Pattern) : Prop := ∀ s, p.split? s = (p.attempts s).head?

theorem head?_stretches (p : Char → Bool) (s : List Char) :
    (stretches p s).head? = some (s.takeWhile p, s.dropWhile p) := by
  induction s with
  | nil => rfl
  | cons c s ih =>
    rw [stretches, List.takeWhile_cons, List.dropWhile_cons]
    split
    · rw [List.head?_append, List.head?_map, ih]
      rfl
    · rfl

/-- Whatever is tried behind the longest stretch leaves some of it. -/
theorem runsOn_of_stretches {p : Char → Bool} {s : List Char} {a : Split} {more : List Split}
    (h : stretches p s = a :: more) : ∀ b ∈ more, RunsOn p b.2 := by
  induction s generalizing a more with
  | nil =>
    obtain ⟨-, rfl⟩ := List.cons.inj h
    exact fun b hb => nomatch hb
  | cons c s ih =>
    obtain ⟨shorter, hshorter⟩ := List.head?_eq_some_iff.1 (head?_stretches p s)
    rw [stretches] at h
    split at h
    · next hc =>
      rw [hshorter, List.map_cons, List.cons_append] at h
      obtain ⟨-, rfl⟩ := List.cons.inj h
      intro b hb
      rcases List.mem_append.1 hb with hb | hb
      · obtain ⟨d, hd, rfl⟩ := List.mem_map.1 hb
        exact ih hshorter d hd
      · obtain rfl := List.mem_singleton.1 hb
        exact ⟨c, s, rfl, hc⟩
    · obtain ⟨-, rfl⟩ := List.cons.inj h
      exact fun b hb => nomatch hb

theorem head?_iterations {step : List Char → Option Split} {steps : List Char → List Split}
    (h : ∀ s, step s = (steps s).head?) (s : List Char) :
    (iterations steps s).head? = some (iterate step s) := by
  fun_induction iterate step s with
  | case1 s hs =>
    have hnone : steps s = [] := List.head?_eq_none_iff.1 ((h s).symm.trans hs)
    rw [iterations, hnone]
    rfl
  | case2 s taken rest hs hlt _ ih =>
    obtain ⟨more, hmore⟩ := List.head?_eq_some_iff.1 ((h s).symm.trans hs)
    rw [iterations, hmore, List.flatMap_cons, if_pos hlt, List.append_assoc, List.head?_append,
      List.head?_map, ih]
    rfl
  | case3 s taken rest hs hge =>
    obtain ⟨more, hmore⟩ := List.head?_eq_some_iff.1 ((h s).symm.trans hs)
    rw [iterations, hmore, List.flatMap_cons, if_neg hge]
    rfl

theorem takesFirst_one (p : Char → Bool) : TakesFirst (one p) := by
  intro s
  cases s with
  | nil => rfl
  | cons c s =>
    rw [split?, attempts]
    split <;> rfl

theorem takesFirst_many (p : Char → Bool) : TakesFirst (many p) := fun s =>
  (head?_stretches p s).symm

theorem takesFirst_choice {l r : Pattern} (hl : TakesFirst l) (hr : TakesFirst r) :
    TakesFirst (choice l r) := fun s => by
  rw [split?, attempts, List.head?_append, hl, hr]

theorem takesFirst_repeated {p : Pattern} (h : TakesFirst p) : TakesFirst (repeated p) := fun s =>
  (head?_iterations h s).symm

/-- A sequence takes its first match if, where its first part is followed by nothing that matches,
the other matches of that part are not either. -/
theorem takesFirst_seq {l r : Pattern} (hl : TakesFirst l) (hr : TakesFirst r)
    (h : ∀ s a more, l.attempts s = a :: more → r.attempts a.2 = [] →
      ∀ b ∈ more, r.attempts b.2 = []) : TakesFirst (seq l r) := by
  intro s
  change (l.split? s).bind _ = _
  rw [hl, attempts]
  cases hs : l.attempts s with
  | nil => rfl
  | cons a more =>
    change (r.split? a.2).bind _ = _
    rw [hr, List.flatMap_cons, List.head?_append]
    cases hrest : r.attempts a.2 with
    | nil =>
      have hmore : (more.flatMap fun b => (r.attempts b.2).map (·.behind b.1)) = [] :=
        List.flatMap_eq_nil_iff.2 fun b hb => by rw [h s a more hs hrest b hb]; rfl
      rw [hmore]
      rfl
    | cons b others => rfl

theorem takesFirst_seq_of_ne_nil {l r : Pattern} (hl : TakesFirst l) (hr : TakesFirst r)
    (h : ∀ s, r.attempts s ≠ []) : TakesFirst (seq l r) :=
  takesFirst_seq hl hr fun _ a _ _ hrest => absurd hrest (h a.2)

theorem takesFirst_seq_one (p : Char → Bool) {r : Pattern} (hr : TakesFirst r) :
    TakesFirst (seq (one p) r) := by
  refine takesFirst_seq (takesFirst_one p) hr fun s a more hs _ b hb => ?_
  cases s with
  | nil => cases hs
  | cons c s =>
    rw [attempts] at hs
    split at hs
    · obtain ⟨-, rfl⟩ := List.cons.inj hs
      cases hb
    · cases hs

theorem attempts_repeated_ne_nil (p : Pattern) (s : List Char) : (repeated p).attempts s ≠ [] := by
  rw [attempts, iterations]
  exact List.append_ne_nil_of_right_ne_nil _ (List.cons_ne_nil _ _)

theorem attempts_many_ne_nil (p : Char → Bool) (s : List Char) : (many p).attempts s ≠ [] := by
  intro hnone
  have hhead := head?_stretches p s
  rw [show stretches p s = [] from hnone] at hhead
  cases hhead

theorem takesFirst_run (p : Char → Bool) : TakesFirst (run p) :=
  takesFirst_seq_one p (takesFirst_many p)

/-- What is tried behind the longest run leaves some of the run. -/
theorem runsOn_of_attempts_run {p : Char → Bool} {s : List Char} {a : Split} {more : List Split}
    (h : (run p).attempts s = a :: more) : ∀ b ∈ more, RunsOn p b.2 := by
  intro b hb
  cases s with
  | nil => cases h
  | cons c s =>
    obtain ⟨shorter, hshorter⟩ := List.head?_eq_some_iff.1 (head?_stretches p s)
    rw [run, attempts, attempts] at h
    split at h
    · rw [List.flatMap_singleton, attempts, hshorter, List.map_cons] at h
      obtain ⟨-, rfl⟩ := List.cons.inj h
      obtain ⟨d, hd, rfl⟩ := List.mem_map.1 hb
      exact runsOn_of_stretches hshorter d hd
    · cases h

/-- A run takes its first match in front of what does not begin with a character of its class. -/
theorem takesFirst_seq_run {p : Char → Bool} {r : Pattern} (hr : TakesFirst r)
    (h : ∀ s, RunsOn p s → r.attempts s = []) : TakesFirst (seq (run p) r) :=
  takesFirst_seq (takesFirst_run p) hr fun _ _ _ hs _ b hb =>
    h b.2 (runsOn_of_attempts_run hs b hb)

theorem takesFirst_group (p sep : Char → Bool) : TakesFirst (group p sep) :=
  takesFirst_seq_one sep (takesFirst_run p)

theorem takesFirst_joined (p sep : Char → Bool) : TakesFirst (joined p sep) :=
  takesFirst_seq_of_ne_nil (takesFirst_run p) (takesFirst_repeated (takesFirst_group p sep))
    (attempts_repeated_ne_nil _)

theorem attempts_group_of_runsOn {p sep : Char → Bool} (h : ∀ c, p c = true → sep c = false)
    {s : List Char} (hs : RunsOn p s) : (group p sep).attempts s = [] := by
  obtain ⟨c, more, rfl, hc⟩ := hs
  rw [group, attempts, attempts, if_neg (Bool.eq_false_iff.1 (h c hc))]
  rfl

theorem takesFirst_number : TakesFirst number := by
  rw [number_eq]
  refine takesFirst_seq_run ?_ fun s hs => ?_
  · exact takesFirst_seq_of_ne_nil (takesFirst_group _ _)
      (takesFirst_repeated (takesFirst_group _ _)) (attempts_repeated_ne_nil _)
  · rw [attempts, attempts_group_of_runsOn (fun c => isPoint_eq_false_of_isDigit) hs]
    rfl

theorem takesFirst_word : TakesFirst word :=
  takesFirst_choice takesFirst_number
    (takesFirst_choice (takesFirst_one _) (takesFirst_joined isSpacedWord isApostrophe))

theorem takesFirst_nothing : TakesFirst nothing := fun _ => rfl

theorem takesFirst_expressions : ∀ e ∈ expressions, TakesFirst e.2 := by
  simp only [expressions, List.forall_mem_cons, List.not_mem_nil, false_imp_iff, implies_true,
    and_true]
  refine ⟨takesFirst_run _, takesFirst_many _, takesFirst_run _, takesFirst_run _, ?_, ?_,
    takesFirst_nothing, takesFirst_run _, takesFirst_run _⟩
  · exact takesFirst_choice (takesFirst_one _) (takesFirst_seq_one _ (takesFirst_one _))
  · exact takesFirst_seq_of_ne_nil (takesFirst_run _) (takesFirst_many _) (attempts_many_ne_nil _)

end Pattern
end TermMining
