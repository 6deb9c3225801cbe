/-
Equality of values: by content, but functions are equal only if they are the
same one, and errors are equal if they have the same message.
-/
import MonkeyLang.Value

namespace MonkeyLang

mutual

def Value.equal : Value → Value → Bool
  | .null, .null => true
  | .integer m, .integer n => m == n
  | .boolean a, .boolean b => a == b
  | .string s, .string t => s == t
  | .array vs, .array ws => Value.equalList vs ws
  | .hash es, .hash fs => Value.equalEntries es fs
  | .function f, .function g => f == g
  | .builtin b, .builtin c => b == c
  | .signal s, .signal t => s.equal t
  | _, _ => false

def Signal.equal : Signal → Signal → Bool
  | .fault f, .fault g => f.message == g.message
  | .returned v, .returned w => v.equal w
  | .brk, .brk => true
  | .cont, .cont => true
  | _, _ => false

def Value.equalList : List Value → List Value → Bool
  | [], [] => true
  | v :: vs, w :: ws => v.equal w && Value.equalList vs ws
  | _, _ => false

def Value.equalEntries : List (Key × Value) → List (Key × Value) → Bool
  | [], [] => true
  | (k, v) :: es, (l, w) :: fs => k == l && v.equal w && Value.equalEntries es fs
  | _, _ => false

end

mutual

theorem Value.equal_self : ∀ v : Value, v.equal v
  | .null | .integer _ | .boolean _ | .string _ | .function _ | .builtin _ => by simp [Value.equal]
  | .array vs => by simp [Value.equal, Value.equalList_self vs]
  | .hash es => by simp [Value.equal, Value.equalEntries_self es]
  | .signal s => by simp [Value.equal, s.equal_self]

theorem Signal.equal_self : ∀ s : Signal, s.equal s
  | .fault _ | .brk | .cont => by simp [Signal.equal]
  | .returned v => by simp [Signal.equal, v.equal_self]

theorem Value.equalList_self : ∀ vs : List Value, Value.equalList vs vs
  | [] => by simp [Value.equalList]
  | v :: vs => by simp [Value.equalList, v.equal_self, Value.equalList_self vs]

theorem Value.equalEntries_self : ∀ es : List (Key × Value), Value.equalEntries es es
  | [] => by simp [Value.equalEntries]
  | (_, v) :: es => by simp [Value.equalEntries, v.equal_self, Value.equalEntries_self es]

end

/-- Keys are equal as values only if they are the same. -/
theorem Key.equal_toValue_iff {k l : Key} : k.toValue.equal l.toValue ↔ k = l := by
  cases k <;> cases l <;> simp [Key.toValue, Value.equal]

end MonkeyLang
