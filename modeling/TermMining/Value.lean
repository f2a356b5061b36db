import TermMining.Number.Layout
import TermMining.Text.Quoted

/-! Loosely typed values, as documents and settings bring them, and the text of a value. -/
namespace TermMining

inductive Value where
  | null
  | bool (b : Bool)
  | int (n : Int)
  | double (x : Float)
  | text (s : String)
  | list (items : List Value)
  | record (entries : List (String × Value))
  deriving Inhabited

namespace Value

mutual

/-- The form of a value inside another one: texts are quoted. -/
def literal : Value → String
  | null => "None"
  | bool b => if b then "True" else "False"
  | int n => toString n
  | double x => Number.text x
  | text s => Text.quote s
  | list items => "[" ++ ", ".intercalate (literals items) ++ "]"
  | record entries => "\x7b" ++ ", ".intercalate (bindings entries) ++ "\x7d"

def literals : List Value → List String
  | [] => []
  | v :: vs => literal v :: literals vs

def bindings : List (String × Value) → List String
  | [] => []
  | (k, v) :: rest => (Text.quote k ++ ": " ++ literal v) :: bindings rest

end

/-- The form of a value by itself: a text stands as it is. -/
def written : Value → String
  | text s => s
  | v => v.literal

/-- Several values in a row: nothing for none, a single one by itself, more in parentheses. -/
def writtenRow : List Value → String
  | [] => ""
  | [v] => v.written
  | vs => "(" ++ ", ".intercalate (literals vs) ++ ")"

/-- Whether a value counts as yes: anything but nothing, zero and what is empty. -/
def holds : Value → Bool
  | null => false
  | bool b => b
  | int n => n != 0
  | double x => !Number.same x 0
  | text s => !s.isEmpty
  | list items => !items.isEmpty
  | record entries => !entries.isEmpty

/-- The name of a value's kind in messages. -/
def kind : Value → String
  | null => "NoneType"
  | bool _ => "bool"
  | int _ => "int"
  | double _ => "float"
  | text _ => "str"
  | list _ => "list"
  | record _ => "dict"

end Value
end TermMining
