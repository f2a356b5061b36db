import TermMining.Pattern

/-! Where matches stand in a text, and what stands outside of them. -/
namespace TermMining.Pattern

/-- The lexeme stands in the text, whose first place is `n`, and is what the pattern takes there. -/
def FoundIn (p : Pattern) (n : Nat) (s : List Char) (l : Lexeme) : Prop :=
  ∃ before after, s = before ++ (l.chars ++ after) ∧ l.start = n + before.length ∧
    p.split? (l.chars ++ after) = some (l.chars, after)

theorem foundIn_of_split? {p : Pattern} {s taken rest : List Char}
    (h : p.split? s = some (taken, rest)) (n : Nat) : FoundIn p n s ⟨n, taken⟩ := by
  have hs : taken ++ rest = s := append_of_split? h
  exact ⟨[], rest, hs.symm, rfl, hs.symm ▸ h⟩

theorem FoundIn.behind {p : Pattern} {n : Nat} {s : List Char} {l : Lexeme} (front : List Char)
    (h : FoundIn p (n + front.length) s l) : FoundIn p n (front ++ s) l := by
  obtain ⟨before, after, rfl, hstart, hsplit⟩ := h
  refine ⟨front ++ before, after, (List.append_assoc _ _ _).symm, ?_, hsplit⟩
  rw [hstart, List.length_append, Nat.add_assoc]

theorem FoundIn.le_start {p : Pattern} {n : Nat} {s : List Char} {l : Lexeme}
    (h : FoundIn p n s l) : n ≤ l.start := by
  obtain ⟨before, after, -, hstart, -⟩ := h
  omega

theorem eq_nil_of_split? {p : Pattern} {s taken rest : List Char}
    (h : p.split? s = some (taken, rest)) (hge : ¬rest.length < s.length) : taken = [] := by
  have hs : taken ++ rest = s := append_of_split? h
  have hlen : taken.length + rest.length = s.length := by rw [← hs, List.length_append]
  exact List.length_eq_zero_iff.1 (by omega)

theorem foundIn_of_mem_scan {p : Pattern} {n : Nat} {emptyAllowed : Bool} {s : List Char}
    {l : Lexeme} (h : l ∈ p.scan n emptyAllowed s) : FoundIn p n s l := by
  fun_induction scan p n emptyAllowed s with
  | case1 n e s taken rest hs hlt ih =>
    rcases List.mem_cons.1 h with rfl | h
    · exact foundIn_of_split? hs n
    · have hfront : taken ++ rest = s := append_of_split? hs
      exact hfront ▸ (ih h).behind taken
  | case2 n s taken rest hs hge ih =>
    rcases List.mem_cons.1 h with rfl | h
    · exact foundIn_of_split? hs n
    · exact ih h
  | case3 => cases h
  | case4 n e taken rest he c s hs hge ih => exact (ih h).behind [c]
  | case5 => cases h
  | case6 n e c s hs ih => exact (ih h).behind [c]

/-- A match begins where the one before has ended, or later. -/
theorem pairwise_scan (p : Pattern) (n : Nat) (emptyAllowed : Bool) (s : List Char) :
    (p.scan n emptyAllowed s).Pairwise fun l m => l.stop ≤ m.start := by
  fun_induction scan p n emptyAllowed s with
  | case1 n e s taken rest hs hlt ih =>
    exact List.pairwise_cons.2 ⟨fun m hm => (foundIn_of_mem_scan hm).le_start, ih⟩
  | case2 n s taken rest hs hge ih =>
    obtain rfl := eq_nil_of_split? hs hge
    exact List.pairwise_cons.2 ⟨fun m hm => (foundIn_of_mem_scan hm).le_start, ih⟩
  | case3 => exact List.Pairwise.nil
  | case4 n e taken rest he c s hs hge ih => exact ih
  | case5 => exact List.Pairwise.nil
  | case6 n e c s hs ih => exact ih

theorem length_pos_of_split? {p : Pattern} {s taken rest : List Char}
    (h : p.split? s = some (taken, rest)) (hlt : rest.length < s.length) : 0 < taken.length := by
  have hs : taken ++ rest = s := append_of_split? h
  have hlen : taken.length + rest.length = s.length := by rw [← hs, List.length_append]
  omega

/-- Where an empty match is not allowed, none ends at the place that the scan begins at. -/
theorem lt_stop_of_mem_scan {p : Pattern} {n : Nat} {emptyAllowed : Bool} {s : List Char}
    {l : Lexeme} (h : l ∈ p.scan n emptyAllowed s) (hempty : emptyAllowed = false) :
    n < l.stop := by
  have hlater : ∀ {n m e t}, l ∈ p.scan m e t → n < m → n < l.stop := by
    intro n m e t hl hlt
    have hle := (foundIn_of_mem_scan hl).le_start
    exact Nat.lt_of_lt_of_le hlt (Nat.le_trans hle (Nat.le_add_right ..))
  fun_induction scan p n emptyAllowed s with
  | case1 n e s taken rest hs hlt =>
    have hpos := length_pos_of_split? hs hlt
    rcases List.mem_cons.1 h with rfl | h
    · exact Nat.lt_add_of_pos_right hpos
    · exact hlater h (Nat.lt_add_of_pos_right hpos)
  | case2 => cases hempty
  | case3 => cases h
  | case4 => exact hlater h (Nat.lt_succ_self _)
  | case5 => cases h
  | case6 => exact hlater h (Nat.lt_succ_self _)

/-- Of two matches that begin at the same place the later one ends later. -/
theorem pairwise_scan_ascending (p : Pattern) (n : Nat) (emptyAllowed : Bool) (s : List Char) :
    (p.scan n emptyAllowed s).Pairwise fun l m =>
      l.start < m.start ∨ l.start = m.start ∧ l.stop < m.stop := by
  fun_induction scan p n emptyAllowed s with
  | case1 n e s taken rest hs hlt ih =>
    have hpos := length_pos_of_split? hs hlt
    refine List.pairwise_cons.2 ⟨fun m hm => Or.inl ?_, ih⟩
    exact Nat.lt_of_lt_of_le (Nat.lt_add_of_pos_right hpos) (foundIn_of_mem_scan hm).le_start
  | case2 n s taken rest hs hge ih =>
    -- the empty match ends where it begins, and no match after it ends there
    obtain rfl := eq_nil_of_split? hs hge
    refine List.pairwise_cons.2 ⟨fun m hm => ?_, ih⟩
    rcases Nat.lt_or_eq_of_le (foundIn_of_mem_scan hm).le_start with hstart | hstart
    · exact Or.inl hstart
    · exact Or.inr ⟨hstart, lt_stop_of_mem_scan hm rfl⟩
  | case3 => exact List.Pairwise.nil
  | case4 n e taken rest he c s hs hge ih => exact ih
  | case5 => exact List.Pairwise.nil
  | case6 n e c s hs ih => exact ih

def Lexeme.Covers (l : Lexeme) (i : Nat) : Prop := l.start ≤ i ∧ i < l.stop

/-- No place is passed over at which the pattern takes something. -/
theorem exists_covers_or (p : Pattern) (n : Nat) (emptyAllowed : Bool) {s before after : List Char}
    {c : Char} (h : s = before ++ c :: after) :
    (∃ l ∈ p.scan n emptyAllowed s, l.Covers (n + before.length)) ∨
      ∀ a, p.split? (c :: after) = some a → a.1 = [] := by
  fun_induction scan p n emptyAllowed s generalizing before with
  | case1 n e s taken rest hs hlt ih =>
    have htaken : taken ++ rest = before ++ c :: after := (append_of_split? hs).trans h
    rcases Nat.lt_or_ge before.length taken.length with hin | hbehind
    · exact Or.inl ⟨⟨n, taken⟩, List.mem_cons_self, Nat.le_add_right n _, Nat.add_lt_add_left hin n⟩
    · obtain ⟨more, rfl⟩ : taken <+: before :=
        List.prefix_of_prefix_length_le ⟨rest, htaken⟩ (List.prefix_append before _) hbehind
      rw [List.append_assoc] at htaken
      refine (ih (List.append_cancel_left htaken)).imp_left ?_
      rintro ⟨l, hl, hcovers⟩
      rw [Nat.add_assoc, ← List.length_append] at hcovers
      exact ⟨l, List.mem_cons_of_mem _ hl, hcovers⟩
  | case2 n s taken rest hs hge ih =>
    refine (ih h).imp_left ?_
    rintro ⟨l, hl, hcovers⟩
    exact ⟨l, List.mem_cons_of_mem _ hl, hcovers⟩
  | case3 => simp at h
  | case4 n e taken rest he d s hs hge ih =>
    cases before with
    | nil =>
      obtain ⟨rfl, rfl⟩ := List.cons.inj h
      refine Or.inr fun a ha => ?_
      rw [hs] at ha
      rw [← Option.some.inj ha]
      exact eq_nil_of_split? hs hge
    | cons b before =>
      have hrest := ih (List.cons.inj h).2
      rwa [Nat.add_assoc, Nat.add_comm 1] at hrest
  | case5 => simp at h
  | case6 n e d s hs ih =>
    cases before with
    | nil =>
      obtain ⟨rfl, rfl⟩ := List.cons.inj h
      refine Or.inr fun a ha => ?_
      rw [hs] at ha
      cases ha
    | cons b before =>
      have hrest := ih (List.cons.inj h).2
      rwa [Nat.add_assoc, Nat.add_comm 1] at hrest

end TermMining.Pattern
