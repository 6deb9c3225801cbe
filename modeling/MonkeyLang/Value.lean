/-
Values, and the signals that cut an evaluation short. A program cannot get
hold of a signal, but its host may store one in a variable or inside an array.
-/
import MonkeyLang.Program.Equal
import MonkeyLang.Value.Fault
import MonkeyLang.Value.Key

namespace MonkeyLang

/-- The number of a frame of variables. -/
abbrev FrameId := Nat

/-- A function with the frame in which it was made. No two functions have the same number. -/
structure Closure where
  number : Nat
  parameters : List String
  body : Block
  frame : FrameId
  deriving DecidableEq

mutual

inductive Value where
  | null
  | integer (n : Int64)
  | boolean (b : Bool)
  | string (s : String)
  | array (items : List Value)
  | hash (entries : List (Key × Value))
  | function (f : Closure)
  | builtin (b : Builtin)
  | signal (s : Signal)

/-- Why an evaluation ends early. -/
inductive Signal where
  | fault (f : Fault)
  | returned (v : Value)
  | brk
  | cont

end

instance : Inhabited Value := ⟨.null⟩

instance : Inhabited Signal := ⟨.brk⟩

def Signal.tag : Signal → Tag
  | fault _ => .fault
  | returned _ => .returned
  | brk => .brk
  | cont => .cont

namespace Value

def tag : Value → Tag
  | null => .null
  | integer _ => .integer
  | boolean _ => .boolean
  | string _ => .string
  | array _ => .array
  | hash _ => .hash
  | function _ => .function
  | builtin _ => .builtin
  | signal s => s.tag

/-- Everything but null and false counts as true. -/
def isTruthy : Value → Bool
  | null => false
  | boolean b => b
  | _ => true

/-- The key that a value is in a hash, if it can be one. -/
def key? : Value → Option Key
  | integer n => some (.integer n)
  | boolean b => some (.boolean b)
  | string s => some (.string s)
  | _ => none

end Value

/-- The value that is this key. -/
def Key.toValue : Key → Value
  | .integer n => .integer n
  | .boolean b => .boolean b
  | .string s => .string s

theorem Key.key?_toValue (k : Key) : k.toValue.key? = some k := by cases k <;> rfl

theorem Value.key?_eq_some_iff {v : Value} {k : Key} : v.key? = some k ↔ v = k.toValue := by
  cases v <;> cases k <;> simp [Value.key?, Key.toValue]

end MonkeyLang
