/-! Tokens: the terms of a text together with where they stand in it. -/
namespace TermMining

/-- `position` counts tokens; `start` and `stop` count characters, `stop` being just past the
last one. -/
structure Token where
  text : String
  position : Int := 0
  start : Int := 0
  stop : Int := 0
  deriving DecidableEq, Repr, Inhabited

end TermMining
