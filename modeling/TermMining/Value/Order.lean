import TermMining.Fault
import TermMining.Order.Sort

/-! Comparing loosely typed values, and reading collections from them. Numbers compare with numbers,
whatever their form, and texts with texts. -/
namespace TermMining.Value

/-- The whole number that a value is; truth values count as zero and one. -/
def whole? : Value → Option Int
  | int n => some n
  | bool b => some (if b then 1 else 0)
  | _ => none

/-- How two values compare: not at all if they are of unlike kinds, and in no order if one of
them is a double that is no number. -/
def compare? : Value → Value → Option (Option Ordering)
  | text a, text b => some (some (if a < b then .lt else if a = b then .eq else .gt))
  | double x, double y =>
    some (if Number.less x y then some .lt
      else if Number.same x y then some .eq
      else if Number.less y x then some .gt
      else none)
  | double x, b => b.whole?.map fun n => (Number.compareWhole? n x).map Ordering.swap
  | a, double y => a.whole?.map fun n => Number.compareWhole? n y
  | a, b => do some (some (compare (← a.whole?) (← b.whole?)))

def compares (c : Comparison) (a b : Value) : Except Fault Bool :=
  match a.compare? b with
  | some o => .ok (c.holds o)
  | none => .error (.incomparable c a.kind b.kind)

/-- The items of a collection: a text consists of its characters, a record of its names. -/
def items : Value → Except Fault (List Value)
  | list items => .ok items
  | text s => .ok (s.toList.map fun c => .text (String.singleton c))
  | record entries => .ok (entries.map fun e => .text e.1)
  | v => .error (.notIterable v.kind)

/-- Whether two values count as one in a set. -/
def agrees (a b : Value) : Bool :=
  match a, b with
  | null, null => true
  | a, b => a.compare? b == some (some .eq)

/-- Whether a value is of one piece. Only such values go into a set. -/
def isElementary : Value → Bool
  | list _ => false
  | record _ => false
  | _ => true

/-- The values without repetitions; of values that agree the first one stays. -/
def distinct (vs : List Value) : Except Fault (List Value) :=
  match vs.find? fun v => !v.isElementary with
  | some v => .error (.notElementary v.kind)
  | none => .ok (vs.foldl (fun kept v => if kept.any v.agrees then kept else kept ++ [v]) [])

/-- The values in ascending order, as long as they all compare with the first one. -/
def ascending : List Value → Except Fault (List Value)
  | [] => .ok []
  | v :: vs =>
    match vs.find? fun w => (w.compare? v).isNone with
    | some w => .error (.incomparable .less w.kind v.kind)
    | none => .ok (Order.sort (fun a b => a.compare? b == some (some .lt)) (v :: vs))

def join (separator : String) (vs : List Value) : Except Fault String := do
  let texts ← vs.zipIdx.mapM fun
    | (text s, _) => pure s
    | (v, place) => throw (.notText place v.kind)
  pure (separator.intercalate texts)

end TermMining.Value
