/-
Errors of a running program, and the words for them.
-/
import MonkeyLang.Builtin
import MonkeyLang.Program

namespace MonkeyLang

/-- The types of values. -/
inductive Tag where
  | null | integer | boolean | string | array | hash | function | builtin
  | returned | brk | cont | fault
  deriving DecidableEq, Repr, Inhabited

def Tag.name : Tag → String
  | null => "NULL"
  | integer => "INTEGER"
  | boolean => "BOOLEAN"
  | string => "STRING"
  | array => "ARRAY"
  | hash => "HASH"
  | function => "FUNCTION"
  | builtin => "BUILTIN"
  | returned => "RETURN_VALUE"
  | brk => "BREAK"
  | cont => "CONTINUE"
  | fault => "ERROR"

/-- Why a running program stopped. -/
inductive Fault where
  | unbound (name : String)
  | unassignable (name : String)
  | badOperand (operand : Tag)
  | badOperator (op : BinaryOp) (operands : Tag)
  | mismatch (left : Tag) (op : BinaryOp) (right : Tag)
  | divisionByZero
  | outsideLoop
  | notIterable (found : Tag)
  | missingArguments (parameters : List String)
  | tooDeep (limit : Nat)
  | notCallable (found : Tag)
  | notIndexable (found : Tag)
  | notHashable (found : Tag)
  | argumentCount (got want : Nat)
  | notArray (callee : Builtin) (got : Tag)
  | notInteger (callee : Builtin) (got : Tag)
  | unsupported (callee : Builtin) (got : Tag)
  | negativeBound (bound : Int64)
  /-- An error that the program's host made, with the host's words. -/
  | custom (text : String)
  deriving DecidableEq, Repr, Inhabited

def Fault.message : Fault → String
  | unbound name => .join ["identifier not found: ", name]
  | unassignable name => .join ["variable '", name, "' does not exist. Can't reassign"]
  | badOperand operand => .join ["unknown operator: -", operand.name]
  | badOperator op operands =>
    .join ["unknown operator: ", operands.name, " ", op.symbol, " ", operands.name]
  | mismatch left op right =>
    .join ["type mismatch: ", left.name, " ", op.symbol, " ", right.name]
  | divisionByZero => "division by zero"
  | outsideLoop => "break/continue cannot be used outside of a loop"
  | notIterable found => .join ["iterator must be ARRAY. found ", found.name]
  | missingArguments parameters =>
    .join ["function call missing required arguments: ", ", ".intercalate parameters]
  | tooDeep limit => .join ["maximum recursion depth exceeded (", toString limit, ")"]
  | notCallable found => .join ["not a function: ", found.name]
  | notIndexable found => .join ["index operator not supported: ", found.name]
  | notHashable found => .join ["unusable as hash key: ", found.name]
  | argumentCount got want =>
    .join ["wrong number of arguments. got ", toString got, ", want ", toString want]
  | notArray callee got =>
    .join ["argument to '", callee.name, "' must be ARRAY, got ", got.name]
  | notInteger callee got =>
    .join ["argument to '", callee.name, "' must be INTEGER, got ", got.name]
  | unsupported callee got =>
    .join ["argument to '", callee.name, "' not supported, got ", got.name]
  | negativeBound bound =>
    .join ["argument to 'randint' must be non-negative, got ", toString bound.toInt]
  | custom text => text

end MonkeyLang
