import TermMining.Stream

/-! Streams over one source lose nothing, give nothing twice and pull no token that they do not
need. -/
namespace TermMining

/-- All filters over all tokens, one filter after the other. -/
def Filter.sweep (fs : List Filter) (ts : List Token) : List Token :=
  fs.foldl (fun ts f => ts.filterMap f.apply) ts

/-- The filters between the source and a stream, the one nearest to the source first. -/
def TokenStream.filters : TokenStream → List Filter
  | .source => []
  | .layer below f => below.filters ++ [f]

namespace Streams

/-- How many tokens are asked for, and in which form. -/
inductive Demand where
  | next
  | take (n : Nat)
  | texts (n : Nat)
  | all

/-- What can be asked of streams: a new one over another, or tokens. -/
inductive Request where
  | layer (i : Nat) (f : Filter)
  | read (i : Nat) (d : Demand)

inductive Answer where
  | stream (i : Nat)
  | token (t : Option Token)
  | tokens (ts : List Token)
  | texts (ts : List String)
  | noSuchStream

namespace Demand

/-- Asking for all is asking for more than there are. -/
def limit (unread : List Token) : Demand → Nat
  | next => 1
  | take n => n
  | texts n => n
  | all => unread.length + 1

def answer (given : List Token) : Demand → Answer
  | next => .token given.head?
  | take _ => .tokens given
  | texts _ => .texts (given.map (·.text))
  | all => .tokens given

end Demand

def Request.stream : Request → Nat
  | layer i _ => i
  | read i _ => i

def serve (s : Streams) : Request → Answer × Streams
  | .layer i f => ((s.layer? i f).map fun r => (.stream r.1, r.2)).getD (.noSuchStream, s)
  | .read i .next => ((s.next? i).map fun r => (.token r.1, r.2)).getD (.noSuchStream, s)
  | .read i (.take n) => ((s.take? i n).map fun r => (.tokens r.1, r.2)).getD (.noSuchStream, s)
  | .read i (.texts n) =>
    ((s.take? i n).map fun r => (.texts (r.1.map (·.text)), r.2)).getD (.noSuchStream, s)
  | .read i .all => ((s.drain? i).map fun r => (.tokens r.1, r.2)).getD (.noSuchStream, s)

def serveAll (s : Streams) : List Request → List Answer × Streams
  | [] => ([], s)
  | r :: rs =>
    let later := (s.serve r).2.serveAll rs
    ((s.serve r).1 :: later.1, later.2)

end Streams

/-- A source that held `unread` gave away `pulled`, of which the filters let `given` through: `n`
tokens, or fewer at the end of the source. With one token pulled less there would have been fewer
than `n`. -/
structure IsReading (fs : List Filter) (n : Nat) (unread pulled rest given : List Token) :
    Prop where
  unread_eq : unread = pulled ++ rest
  given_eq : given = pulled.filterMap (Filter.applyAll fs)
  enough : given.length = n ∨ given.length < n ∧ rest = []
  thrifty : ∀ front back, pulled = front ++ back → back ≠ [] →
    (front.filterMap (Filter.applyAll fs)).length < n

namespace Filter

theorem filterMap_applyAll_append (fs gs : List Filter) (ts : List Token) :
    ts.filterMap (applyAll (fs ++ gs)) = (ts.filterMap (applyAll fs)).filterMap (applyAll gs) := by
  rw [List.filterMap_filterMap]
  exact congrArg (List.filterMap · ts) (funext (applyAll_append fs gs))

theorem applyAll_singleton (f : Filter) : applyAll [f] = f.apply :=
  funext fun t => Option.bind_fun_some (f.apply t)

/-- It does not matter whether each token meets all filters in turn or each filter all tokens. -/
theorem filterMap_applyAll (fs : List Filter) (ts : List Token) :
    ts.filterMap (applyAll fs) = sweep fs ts := by
  induction fs generalizing ts with
  | nil => exact List.filterMap_some
  | cons f fs ih =>
    have hstep := filterMap_applyAll_append [f] fs ts
    rw [applyAll_singleton] at hstep
    exact hstep.trans (ih (ts.filterMap f.apply))

end Filter

namespace IsReading

variable {fs : List Filter} {n : Nat} {unread pulled rest given : List Token}

/-- More tokens pulled before, as long as they fell short of what was asked for in all. -/
theorem prepend (h : IsReading fs n unread pulled rest given) (first : List Token)
    (hfirst : ∀ front back, first = front ++ back → back ≠ [] →
      (front.filterMap (Filter.applyAll fs)).length <
        (first.filterMap (Filter.applyAll fs)).length + n) :
    IsReading fs ((first.filterMap (Filter.applyAll fs)).length + n) (first ++ unread)
      (first ++ pulled) rest (first.filterMap (Filter.applyAll fs) ++ given) where
  unread_eq := by rw [h.unread_eq, List.append_assoc]
  given_eq := by rw [h.given_eq, List.filterMap_append]
  enough := by
    rw [List.length_append]
    rcases h.enough with heq | ⟨hlt, hrest⟩
    · exact Or.inl (by omega)
    · exact Or.inr ⟨by omega, hrest⟩
  thrifty := by
    intro front back hsplit hback
    rcases List.append_eq_append_iff.1 hsplit with ⟨between, rfl, hpulled⟩ | ⟨between, rfl, rfl⟩
    · have hlt := h.thrifty between back hpulled hback
      rw [List.filterMap_append, List.length_append]
      omega
    · cases between with
      | nil =>
        have hlt := h.thrifty [] pulled rfl hback
        rw [List.append_nil]
        exact Nat.lt_add_of_pos_right (Nat.zero_lt_of_lt hlt)
      | cons t ts => exact hfirst front (t :: ts) rfl (List.cons_ne_nil t ts)

/-- What falls short of the number under some filters falls short of it under more. -/
theorem thrifty_append (h : IsReading fs n unread pulled rest given) (gs : List Filter)
    {front back : List Token} (hsplit : pulled = front ++ back) (hback : back ≠ []) :
    (front.filterMap (Filter.applyAll (fs ++ gs))).length < n := by
  rw [Filter.filterMap_applyAll_append]
  exact Nat.lt_of_le_of_lt (List.length_filterMap_le _ _) (h.thrifty front back hsplit hback)

theorem rest_eq_nil (h : IsReading fs n unread pulled rest given) (hlt : given.length < n) :
    rest = [] := by
  rcases h.enough with heq | ⟨-, hrest⟩
  · omega
  · exact hrest

/-- Where there are too few tokens there are no more to find by asking for more. -/
theorem mono (h : IsReading fs n unread pulled rest given) (hlt : given.length < n) {m : Nat}
    (hle : n ≤ m) : IsReading fs m unread pulled rest given where
  unread_eq := h.unread_eq
  given_eq := h.given_eq
  enough := Or.inr ⟨by omega, h.rest_eq_nil hlt⟩
  thrifty front back hsplit hback := Nat.lt_of_lt_of_le (h.thrifty front back hsplit hback) hle

/-- Too few tokens are too few under more filters as well. -/
theorem of_short (h : IsReading fs n unread pulled rest given) (hlt : given.length < n)
    (gs : List Filter) :
    IsReading (fs ++ gs) n unread pulled rest (given.filterMap (Filter.applyAll gs)) where
  unread_eq := h.unread_eq
  given_eq := by rw [Filter.filterMap_applyAll_append, ← h.given_eq]
  enough := by
    have hle := List.length_filterMap_le (Filter.applyAll gs) given
    exact Or.inr ⟨by omega, h.rest_eq_nil hlt⟩
  thrifty _ _ := h.thrifty_append gs

/-- Of two readings of one source for the same number neither pulls more than the other. -/
theorem eq_of_prefix {pulled' rest' given' : List Token}
    (h : IsReading fs n unread pulled rest given) (h' : IsReading fs n unread pulled' rest' given')
    (hfront : pulled <+: pulled') : pulled = pulled' := by
  obtain ⟨back, rfl⟩ := hfront
  cases back with
  | nil => rw [List.append_nil]
  | cons t back =>
    -- the first reading fell short of the number, so it has read all there is
    have hshort : given.length < n := by
      rw [h.given_eq]
      exact h'.thrifty pulled (t :: back) rfl (List.cons_ne_nil t back)
    have hall : unread = pulled := by rw [h.unread_eq, h.rest_eq_nil hshort, List.append_nil]
    have hlen := congrArg List.length (hall.symm.trans h'.unread_eq)
    simp only [List.length_append, List.length_cons] at hlen
    omega

theorem unique {pulled' rest' given' : List Token}
    (h : IsReading fs n unread pulled rest given)
    (h' : IsReading fs n unread pulled' rest' given') : given = given' ∧ rest = rest' := by
  have hpulled : pulled = pulled' := by
    have hfront : pulled <+: unread := ⟨rest, h.unread_eq.symm⟩
    have hfront' : pulled' <+: unread := ⟨rest', h'.unread_eq.symm⟩
    rcases List.prefix_or_prefix_of_prefix hfront hfront' with hshorter | hshorter
    · exact h.eq_of_prefix h' hshorter
    · exact (h'.eq_of_prefix h hshorter).symm
  subst hpulled
  have hrest := h.unread_eq.symm.trans h'.unread_eq
  exact ⟨h.given_eq.trans h'.given_eq.symm, List.append_cancel_left hrest⟩

/-- Of its filters a reading depends on what they do to a token. -/
theorem congr (h : IsReading fs n unread pulled rest given) {gs : List Filter}
    (hgs : Filter.applyAll fs = Filter.applyAll gs) :
    IsReading gs n unread pulled rest given where
  unread_eq := h.unread_eq
  given_eq := hgs ▸ h.given_eq
  enough := h.enough
  thrifty := hgs ▸ h.thrifty

end IsReading

/-- Asking gives the first token that the filters let through. -/
def ReadsThrough (fs : List Filter) (ask : (unread : List Token) → Pulled unread) : Prop :=
  ∀ unread, ∃ pulled, IsReading fs 1 unread pulled (ask unread).rest (ask unread).token.toList

namespace TokenStream

theorem readsThrough_firstPassing {fs : List Filter} {ask : (unread : List Token) → Pulled unread}
    (h : ReadsThrough fs ask) (f : Filter) : ReadsThrough (fs ++ [f]) (firstPassing f ask) := by
  intro unread
  fun_induction firstPassing f ask unread with
  | case1 unread rest _ heq =>
    obtain ⟨pulled, hreading⟩ := h unread
    rw [heq] at hreading
    exact ⟨pulled, hreading.of_short Nat.one_pos [f]⟩
  | case2 unread t rest _ heq u hu =>
    obtain ⟨pulled, hreading⟩ := h unread
    rw [heq] at hreading
    have hgiven : [u] = pulled.filterMap (Filter.applyAll (fs ++ [f])) := by
      rw [Filter.filterMap_applyAll_append, Filter.applyAll_singleton, ← hreading.given_eq]
      change [u] = [t].filterMap f.apply
      rw [List.filterMap_cons_some hu, List.filterMap_nil]
    exact ⟨pulled, hreading.unread_eq, hgiven, Or.inl rfl, fun _ _ => hreading.thrifty_append [f]⟩
  | case3 unread t rest _ heq hdropped later ih =>
    obtain ⟨first, hreading⟩ := h unread
    rw [heq] at hreading
    obtain ⟨pulled, hlater⟩ := ih
    have hnone : first.filterMap (Filter.applyAll (fs ++ [f])) = [] := by
      rw [Filter.filterMap_applyAll_append, Filter.applyAll_singleton, ← hreading.given_eq]
      exact List.filterMap_cons_none hdropped
    have hwhole := hlater.prepend first (by
      rw [hnone]
      exact fun _ _ => hreading.thrifty_append [f])
    rw [hnone, List.length_nil, Nat.zero_add, List.nil_append, ← hreading.unread_eq] at hwhole
    exact ⟨first ++ pulled, hwhole⟩

theorem readsThrough_source : ReadsThrough [] source.pull := by
  intro unread
  cases unread with
  | nil => exact ⟨[], rfl, rfl, Or.inr ⟨Nat.one_pos, rfl⟩, by simp⟩
  | cons t rest =>
    refine ⟨[t], rfl, rfl, Or.inl rfl, ?_⟩
    intro front back hsplit hback
    obtain rfl : front = [] := by
      cases front with
      | nil => rfl
      | cons a front => simp_all
    exact Nat.one_pos

theorem readsThrough_pull (s : TokenStream) : ReadsThrough s.filters s.pull := by
  induction s with
  | source => exact readsThrough_source
  | layer below f ih => exact readsThrough_firstPassing ih f

/-- Asked for `n` tokens, a stream pulls just as many from the source as it takes to find them. -/
theorem isReading_pullMany (s : TokenStream) (n : Nat) (unread : List Token) :
    ∃ pulled, IsReading s.filters n unread pulled (s.pullMany n unread).2
      (s.pullMany n unread).1 := by
  induction n generalizing unread with
  | zero => exact ⟨[], rfl, rfl, Or.inl rfl, by simp⟩
  | succ n ih =>
    obtain ⟨first, hreading⟩ := s.readsThrough_pull unread
    unfold pullMany
    split
    · next rest _ heq =>
      rw [heq] at hreading
      exact ⟨first, hreading.mono Nat.one_pos (Nat.le_add_left 1 n)⟩
    · next t rest _ heq =>
      rw [heq] at hreading
      obtain ⟨pulled, hmore⟩ := ih rest
      have hgiven : first.filterMap (Filter.applyAll s.filters) = [t] := hreading.given_eq.symm
      have hwhole := hmore.prepend first (by
        rw [hgiven]
        intro front back hsplit hback
        exact Nat.lt_add_right n (hreading.thrifty front back hsplit hback))
      rw [hgiven, ← hreading.unread_eq, List.length_singleton, Nat.add_comm] at hwhole
      exact ⟨first ++ pulled, hwhole⟩

/-- Streams whose filters do the same to each token give the same tokens and leave the same. -/
theorem pullMany_congr {s t : TokenStream}
    (h : Filter.applyAll s.filters = Filter.applyAll t.filters) (n : Nat) (unread : List Token) :
    s.pullMany n unread = t.pullMany n unread := by
  obtain ⟨pulled, hs⟩ := s.isReading_pullMany n unread
  obtain ⟨pulled', ht⟩ := t.isReading_pullMany n unread
  obtain ⟨hgiven, hrest⟩ := (hs.congr h).unique ht
  exact Prod.ext hgiven hrest

end TokenStream

namespace Streams

variable {s : Streams} {i : Nat} {t : TokenStream}

/-- A request is served by pulling `pulled` from the source. Streams once there stay as they are. -/
inductive Serves (s : Streams) : Request → List Token → Answer → Streams → Prop where
  | layer {i : Nat} {below : TokenStream} (h : s.streams[i]? = some below) (f : Filter) :
      Serves s (.layer i f) [] (.stream s.streams.length)
        { s with streams := s.streams ++ [below.layer f] }
  | read {i : Nat} {t : TokenStream} (h : s.streams[i]? = some t) (d : Demand)
      {pulled rest given : List Token}
      (hr : IsReading t.filters (d.limit s.unread) s.unread pulled rest given) :
      Serves s (.read i d) pulled (d.answer given) { s with unread := rest }
  | missing {r : Request} (h : s.streams[r.stream]? = none) : Serves s r [] .noSuchStream s

/-- Requests are served in turn, each by pulling its own tokens. -/
inductive ServesAll :
    Streams → List Request → List (List Token) → List Answer → Streams → Prop where
  | nil (s : Streams) : ServesAll s [] [] [] s
  | cons {s s' final : Streams} {r : Request} {pulled : List Token} {a : Answer}
      {rs : List Request} {pulls : List (List Token)} {as : List Answer}
      (h : Serves s r pulled a s') (hs : ServesAll s' rs pulls as final) :
      ServesAll s (r :: rs) (pulled :: pulls) (a :: as) final

theorem Serves.unread_eq {s' : Streams} {r : Request} {pulled : List Token} {a : Answer}
    (h : s.Serves r pulled a s') : s.unread = pulled ++ s'.unread := by
  cases h with
  | layer h f => rfl
  | read h d hr => exact hr.unread_eq
  | missing h => rfl

theorem ServesAll.unread_eq {final : Streams} {rs : List Request} {pulls : List (List Token)}
    {as : List Answer} (h : ServesAll s rs pulls as final) :
    s.unread = pulls.flatten ++ final.unread := by
  induction h with
  | nil s => rfl
  | cons h hs ih => rw [List.flatten_cons, List.append_assoc, ← ih, h.unread_eq]

theorem exists_serve_read (h : s.streams[i]? = some t) (d : Demand) :
    ∃ pulled rest given, IsReading t.filters (d.limit s.unread) s.unread pulled rest given ∧
      s.serve (.read i d) = (d.answer given, { s with unread := rest }) := by
  cases d with
  | next =>
    obtain ⟨pulled, hreading⟩ := t.readsThrough_pull s.unread
    refine ⟨pulled, _, _, hreading, ?_⟩
    simp [serve, next?, h, Demand.answer]
  | take n =>
    obtain ⟨pulled, hreading⟩ := t.isReading_pullMany n s.unread
    refine ⟨pulled, _, _, hreading, ?_⟩
    simp [serve, take?, h, Demand.answer]
  | texts n =>
    obtain ⟨pulled, hreading⟩ := t.isReading_pullMany n s.unread
    refine ⟨pulled, _, _, hreading, ?_⟩
    simp [serve, take?, h, Demand.answer]
  | all =>
    obtain ⟨pulled, hreading⟩ := t.isReading_pullMany (s.unread.length + 1) s.unread
    refine ⟨pulled, _, _, hreading, ?_⟩
    simp [serve, drain?, take?, h, Demand.answer]

theorem serve_of_missing {r : Request} (h : s.streams[r.stream]? = none) :
    s.serve r = (.noSuchStream, s) := by
  cases r with
  | layer i f =>
    change s.streams[i]? = none at h
    simp [serve, layer?, h]
  | read i d =>
    change s.streams[i]? = none at h
    cases d <;> simp [serve, next?, drain?, take?, h]

theorem exists_serves (s : Streams) (r : Request) :
    ∃ pulled, s.Serves r pulled (s.serve r).1 (s.serve r).2 := by
  cases h : s.streams[r.stream]? with
  | none =>
    rw [serve_of_missing h]
    exact ⟨[], .missing h⟩
  | some t =>
    cases r with
    | layer i f =>
      change s.streams[i]? = some t at h
      have hserve : s.serve (.layer i f) =
          (.stream s.streams.length, { s with streams := s.streams ++ [t.layer f] }) := by
        simp [serve, layer?, h]
      rw [hserve]
      exact ⟨[], .layer h f⟩
    | read i d =>
      change s.streams[i]? = some t at h
      obtain ⟨pulled, rest, given, hreading, hserve⟩ := exists_serve_read h d
      rw [hserve]
      exact ⟨pulled, .read h d hreading⟩

theorem exists_servesAll (s : Streams) (rs : List Request) :
    ∃ pulls, ServesAll s rs pulls (s.serveAll rs).1 (s.serveAll rs).2 := by
  induction rs generalizing s with
  | nil => exact ⟨[], .nil s⟩
  | cons r rs ih =>
    obtain ⟨pulled, h⟩ := s.exists_serves r
    obtain ⟨pulls, hs⟩ := ih (s.serve r).2
    exact ⟨pulled :: pulls, .cons h hs⟩

/-- At the end of the source every stream is at its end. -/
theorem serve_read_of_unread_nil (h : s.streams[i]? = some t) (hnil : s.unread = []) (d : Demand) :
    s.serve (.read i d) = (d.answer [], s) := by
  obtain ⟨pulled, rest, given, hreading, hserve⟩ := exists_serve_read h d
  obtain ⟨rfl, rfl⟩ := List.append_eq_nil_iff.1 (hreading.unread_eq.symm.trans hnil)
  obtain rfl : given = [] := hreading.given_eq
  rw [hserve, ← hnil]

/-- All tokens of a stream are what its filters let through of the whole rest of the source. -/
theorem serve_read_all (h : s.streams[i]? = some t) :
    s.serve (.read i .all) =
      (.tokens (Filter.sweep t.filters s.unread), { s with unread := [] }) := by
  obtain ⟨pulled, rest, given, hreading, hserve⟩ := exists_serve_read h .all
  have hlen : given.length < s.unread.length + 1 := by
    rw [hreading.given_eq, hreading.unread_eq, List.length_append]
    have hle := List.length_filterMap_le (Filter.applyAll t.filters) pulled
    omega
  obtain rfl := hreading.rest_eq_nil hlen
  have hpulled : s.unread = pulled := by rw [hreading.unread_eq, List.append_nil]
  rw [hserve, hreading.given_eq, Filter.filterMap_applyAll, hpulled]
  rfl

/-- Whatever streams are laid over a source and whatever is asked of them in turn, the tokens pulled
are a front of the source, in order and each of them once, and each request gives what the filters
of its stream make of the tokens that it pulled, without one that it could do without. At any time
a stream has to give what its filters let through of the rest of the source, and nothing at the end
of it. -/
theorem reads_once (tokens : List Token) (rs : List Request) :
    let r := (ofTokens tokens).serveAll rs
    (∃ pulls, ServesAll (ofTokens tokens) rs pulls r.1 r.2 ∧
      tokens = pulls.flatten ++ r.2.unread) ∧
    ∀ i t, r.2.streams[i]? = some t →
      (r.2.unread = [] → ∀ d, r.2.serve (.read i d) = (d.answer [], r.2)) ∧
      r.2.serve (.read i .all) =
        (.tokens (Filter.sweep t.filters r.2.unread), { r.2 with unread := [] }) := by
  intro r
  constructor
  · obtain ⟨pulls, hs⟩ := (ofTokens tokens).exists_servesAll rs
    exact ⟨pulls, hs, hs.unread_eq⟩
  · intro i t h
    exact ⟨serve_read_of_unread_nil h, serve_read_all h⟩

end Streams
end TermMining
