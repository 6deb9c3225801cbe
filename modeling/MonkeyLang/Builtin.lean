/-
The functions that every program can call by name.
-/

namespace MonkeyLang

inductive Builtin where
  | first | last | len | push | puts | randint | range | rest | toStr
  deriving DecidableEq, Repr, Inhabited

namespace Builtin

def name : Builtin → String
  | first => "first"
  | last => "last"
  | len => "len"
  | push => "push"
  | puts => "puts"
  | randint => "randint"
  | range => "range"
  | rest => "rest"
  | toStr => "to_str"

/-- The built-in functions in the order of their names. -/
def all : List Builtin := [first, last, len, push, puts, randint, range, rest, toStr]

def ofName? (name : String) : Option Builtin := all.find? (·.name = name)

theorem ofName?_name (b : Builtin) : ofName? b.name = some b := by
  cases b <;> decide

end Builtin

end MonkeyLang
