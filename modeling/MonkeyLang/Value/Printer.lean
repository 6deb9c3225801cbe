/-
The text of values. A string inside an array or a hash stands in quotes, at the
top it does not.
-/
import MonkeyLang.Program.Printer
import MonkeyLang.Value

namespace MonkeyLang

/-- The text of a key, which always stands inside a hash. -/
def Key.render : Key → String
  | .integer n => toString n.toInt
  | .boolean b => if b then "true" else "false"
  | .string s => "\"" ++ s ++ "\""

/-- The text of a built-in function. -/
def Builtin.render (b : Builtin) : String := .join ["builtin function ", b.name]

mutual

/-- The text of a value; `nested` says that it stands inside another one. -/
def Value.render (nested : Bool) : Value → String
  | .null => "null"
  | .integer n => toString n.toInt
  | .boolean b => if b then "true" else "false"
  | .string s => if nested then "\"" ++ s ++ "\"" else s
  | .array items => "[" ++ Value.renderList items ++ "]"
  | .hash entries => "\x7b" ++ Value.renderEntries entries ++ "\x7d"
  | .function f => printFunction f.parameters f.body
  | .builtin b => b.render
  | .signal s => s.render

def Signal.render : Signal → String
  | .fault f => "ERROR: " ++ f.message
  | .returned v => v.render false
  | .brk => "break"
  | .cont => "continue"

/-- The values, separated by commas. -/
def Value.renderList : List Value → String
  | [] => ""
  | v :: vs => v.render true ++ Value.renderListTail vs

def Value.renderListTail : List Value → String
  | [] => ""
  | v :: vs => ", " ++ v.render true ++ Value.renderListTail vs

/-- The entries in their order, separated by commas. -/
def Value.renderEntries : List (Key × Value) → String
  | [] => ""
  | (k, v) :: es =>
    k.render ++ ": " ++ v.render true ++ Value.renderEntriesTail es

def Value.renderEntriesTail : List (Key × Value) → String
  | [] => ""
  | (k, v) :: es =>
    ", " ++ k.render ++ ": " ++ v.render true ++ Value.renderEntriesTail es

end

/-- The text of a value that stands alone. -/
def Value.display (v : Value) : String := v.render false

/-- The text of a value as it stands inside another one. -/
def Value.inspect (v : Value) : String := v.render true

theorem Key.render_eq (k : Key) : k.render = k.toValue.inspect := by
  cases k <;> rfl

theorem Value.renderList_singleton (v : Value) : Value.renderList [v] = v.inspect := by
  simp only [Value.renderList, Value.renderListTail, String.append_empty, Value.inspect]

theorem Value.renderList_cons_cons (v v' : Value) (vs : List Value) :
    Value.renderList (v :: v' :: vs) = v.inspect ++ (", " ++ Value.renderList (v' :: vs)) := by
  simp only [Value.renderList, Value.renderListTail, String.append_assoc, Value.inspect]

theorem Value.renderEntries_singleton (k : Key) (v : Value) :
    Value.renderEntries [(k, v)] = k.toValue.inspect ++ (": " ++ v.inspect) := by
  simp only [Value.renderEntries, Value.renderEntriesTail, String.append_empty,
    String.append_assoc, Key.render_eq, Value.inspect]

theorem Value.renderEntries_cons_cons (k : Key) (v : Value) (e : Key × Value)
    (es : Entries Value) :
    Value.renderEntries ((k, v) :: e :: es) =
      k.toValue.inspect ++ (": " ++ v.inspect) ++ (", " ++ Value.renderEntries (e :: es)) := by
  simp only [Value.renderEntries, Value.renderEntriesTail, String.append_assoc, Key.render_eq,
    Value.inspect]

end MonkeyLang
