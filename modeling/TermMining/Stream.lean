import TermMining.Filter

/-! Token streams that share one source. A stream is the source itself, or it lays a filter over
another stream; so what one stream reads is gone for all of them. -/
namespace TermMining

inductive TokenStream where
  | source
  | layer (below : TokenStream) (f : Filter)

/-- What a stream gives next, none at the end, and what the source holds after that. -/
structure Pulled (unread : List Token) where
  token : Option Token
  rest : List Token
  shorter : token.isSome = true → rest.length < unread.length

namespace TokenStream

/-- Asks for tokens until one passes the filter. -/
def firstPassing (f : Filter) (ask : (unread : List Token) → Pulled unread)
    (unread : List Token) : Pulled unread :=
  match ask unread with
  | ⟨none, rest, _⟩ => ⟨none, rest, nofun⟩
  | ⟨some t, rest, h⟩ =>
    match f.apply t with
    | some u => ⟨some u, rest, fun _ => h rfl⟩
    | none =>
      let later := firstPassing f ask rest
      ⟨later.token, later.rest, fun hs => Nat.lt_trans (later.shorter hs) (h rfl)⟩
termination_by unread.length
decreasing_by exact h rfl

/-- The next token of a stream over a source that holds `unread`. -/
def pull : TokenStream → (unread : List Token) → Pulled unread
  | source, [] => ⟨none, [], nofun⟩
  | source, t :: rest => ⟨some t, rest, fun _ => Nat.lt_succ_self rest.length⟩
  | layer below f, unread => firstPassing f below.pull unread

def pullMany (s : TokenStream) : Nat → List Token → List Token × List Token
  | 0, unread => ([], unread)
  | n + 1, unread =>
    match s.pull unread with
    | ⟨none, rest, _⟩ => ([], rest)
    | ⟨some t, rest, _⟩ =>
      let more := s.pullMany n rest
      (t :: more.1, more.2)

end TokenStream

/-- `unread` is what the source still holds; streams go by their numbers. -/
structure Streams where
  unread : List Token
  streams : List TokenStream

namespace Streams

/-- Stream 0 reads the source as it is. -/
def ofTokens (tokens : List Token) : Streams := ⟨tokens, [.source]⟩

/-- Lays a filter over a stream; the new stream takes the next number. -/
def layer? (s : Streams) (i : Nat) (f : Filter) : Option (Nat × Streams) :=
  (s.streams[i]?).map fun below =>
    (s.streams.length, { s with streams := s.streams ++ [below.layer f] })

def next? (s : Streams) (i : Nat) : Option (Option Token × Streams) :=
  (s.streams[i]?).map fun t =>
    let r := t.pull s.unread
    (r.token, { s with unread := r.rest })

def take? (s : Streams) (i n : Nat) : Option (List Token × Streams) :=
  (s.streams[i]?).map fun t =>
    let r := t.pullMany n s.unread
    (r.1, { s with unread := r.2 })

def drain? (s : Streams) (i : Nat) : Option (List Token × Streams) :=
  s.take? i (s.unread.length + 1)

end Streams
end TermMining
