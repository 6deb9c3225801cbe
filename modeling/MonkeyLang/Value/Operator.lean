/-
What the operators do to values. Integers have 64 bits and wrap around.
-/
import MonkeyLang.Value

namespace MonkeyLang

/-- The quotient rounded down, none for a divisor of zero. -/
def floorDiv? (l r : Int64) : Option Int64 :=
  if r = 0 then none
  else
    let quotient := l / r
    if l % r ≠ 0 ∧ (l < 0) ≠ (r < 0) then some (quotient - 1) else some quotient

def UnaryOp.apply : UnaryOp → Value → Except Fault Value
  | not, v => .ok (.boolean !v.isTruthy)
  | negate, .integer n => .ok (.integer (-n))
  | negate, v => .error (.badOperand v.tag)

namespace BinaryOp

def onIntegers (op : BinaryOp) (l r : Int64) : Except Fault Value :=
  match op with
  | add => .ok (.integer (l + r))
  | subtract => .ok (.integer (l - r))
  | multiply => .ok (.integer (l * r))
  | divide =>
    match floorDiv? l r with
    | some q => .ok (.integer q)
    | none => .error .divisionByZero
  | equal => .ok (.boolean (l == r))
  | notEqual => .ok (.boolean (l != r))
  | less => .ok (.boolean (l < r))
  | greater => .ok (.boolean (l > r))

/-- The error for operands that the operator is not made for. -/
def refuse (op : BinaryOp) (l r : Value) : Fault :=
  if l.tag = r.tag then .badOperator op l.tag else .mismatch l.tag op r.tag

def apply (op : BinaryOp) (l r : Value) : Except Fault Value :=
  match l, r with
  | .integer m, .integer n => op.onIntegers m n
  | .boolean a, .boolean b =>
    match op with
    | equal => .ok (.boolean (a == b))
    | notEqual => .ok (.boolean (a != b))
    | _ => .error (op.refuse l r)
  | .string s, .string t =>
    match op with
    | add => .ok (.string (s ++ t))
    | _ => .error (op.refuse l r)
  | _, _ => .error (op.refuse l r)

end BinaryOp

/-- The member of an array or a hash. A position outside the array and a key that the hash lacks
give null. -/
def Value.member (collection key : Value) : Except Fault Value :=
  match collection, key with
  | .array items, .integer n =>
    if n < 0 then .ok .null else .ok ((items[n.toInt.toNat]?).getD .null)
  | .hash entries, _ =>
    match key.key? with
    | some k => .ok ((Entries.get? entries k).getD .null)
    | none => .error (.notHashable key.tag)
  | _, _ => .error (.notIndexable collection.tag)

end MonkeyLang
