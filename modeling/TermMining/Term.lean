/-! Terms: a text as it occurs in a field. -/
namespace TermMining

structure Term where
  field : String
  text : String
  deriving DecidableEq, Repr, Inhabited

namespace Term

/-- By field, then by text. -/
protected def lt (s t : Term) : Prop := s.field < t.field ∨ s.field = t.field ∧ s.text < t.text

instance : LT Term := ⟨Term.lt⟩

instance (s t : Term) : Decidable (s < t) :=
  inferInstanceAs (Decidable (s.field < t.field ∨ s.field = t.field ∧ s.text < t.text))

protected def toString (t : Term) : String := t.field ++ ":" ++ t.text

instance : ToString Term := ⟨Term.toString⟩

end Term
end TermMining
