/-
What stands within code and within values: the expressions of an expression
or a block, function literals included, and the values of a value, the keys
of hashes and what a signal brings included.
-/
import MonkeyLang.Value

namespace MonkeyLang

/-! ## Code -/

mutual

/-- The expressions within an expression, itself first. -/
def Expr.within : Expr → List Expr
  | .ident x => [.ident x]
  | .integer n => [.integer n]
  | .boolean b => [.boolean b]
  | .string s => [.string s]
  | .array es => .array es :: Expr.withinList es
  | .hash es => .hash es :: Expr.withinEntries es
  | .unary op e => .unary op e :: e.within
  | .binary l op r => .binary l op r :: (l.within ++ r.within)
  | .assign x e => .assign x e :: e.within
  | .ifElse c b d => .ifElse c b d :: (c.within ++ Stmt.withinList b ++ Stmt.withinElse d)
  | .forIn x e b => .forIn x e b :: (e.within ++ Stmt.withinList b)
  | .whileDo c b => .whileDo c b :: (c.within ++ Stmt.withinList b)
  | .function xs b => .function xs b :: Stmt.withinList b
  | .call f es => .call f es :: (f.within ++ Expr.withinList es)
  | .index c k => .index c k :: (c.within ++ k.within)

def Expr.withinList : List Expr → List Expr
  | [] => []
  | e :: es => e.within ++ Expr.withinList es

def Expr.withinEntries : List (Expr × Expr) → List Expr
  | [] => []
  | (k, v) :: es => k.within ++ v.within ++ Expr.withinEntries es

def Stmt.within : Stmt → List Expr
  | .define _ e => e.within
  | .ret e => e.within
  | .expr e => e.within
  | .brk => []
  | .cont => []

/-- The expressions within a block. -/
def Stmt.withinList : List Stmt → List Expr
  | [] => []
  | s :: ss => s.within ++ Stmt.withinList ss

def Stmt.withinElse : Option (List Stmt) → List Expr
  | none => []
  | some b => Stmt.withinList b

end

theorem Expr.mem_within_self (e : Expr) : e ∈ e.within := by
  cases e <;> exact List.mem_cons_self

theorem Expr.withinList_eq (es : List Expr) : Expr.withinList es = es.flatMap Expr.within := by
  induction es with
  | nil => rfl
  | cons e es ih => rw [Expr.withinList, ih, List.flatMap_cons]

theorem Expr.withinEntries_eq (es : List (Expr × Expr)) :
    Expr.withinEntries es = es.flatMap fun e => e.1.within ++ e.2.within := by
  induction es with
  | nil => rfl
  | cons e es ih => rw [Expr.withinEntries, ih, List.flatMap_cons]

theorem Stmt.withinList_eq (ss : List Stmt) : Stmt.withinList ss = ss.flatMap Stmt.within := by
  induction ss with
  | nil => rfl
  | cons s ss ih => rw [Stmt.withinList, ih, List.flatMap_cons]

/-! ## Values -/

mutual

/-- The values within a value, itself first. -/
def Value.within : Value → List Value
  | .null => [.null]
  | .integer n => [.integer n]
  | .boolean b => [.boolean b]
  | .string s => [.string s]
  | .array vs => .array vs :: Value.withinList vs
  | .hash es => .hash es :: Value.withinEntries es
  | .function c => [.function c]
  | .builtin b => [.builtin b]
  | .signal s => .signal s :: s.within

/-- The values that a signal brings. -/
def Signal.within : Signal → List Value
  | .fault _ => []
  | .returned v => v.within
  | .brk => []
  | .cont => []

def Value.withinList : List Value → List Value
  | [] => []
  | v :: vs => v.within ++ Value.withinList vs

def Value.withinEntries : List (Key × Value) → List Value
  | [] => []
  | (k, v) :: es => k.toValue :: (v.within ++ Value.withinEntries es)

end

theorem Value.mem_within_self (v : Value) : v ∈ v.within := by
  cases v <;> exact List.mem_cons_self

theorem Value.withinList_eq (vs : List Value) : Value.withinList vs = vs.flatMap Value.within := by
  induction vs with
  | nil => rfl
  | cons v vs ih => rw [Value.withinList, ih, List.flatMap_cons]

theorem Value.withinEntries_eq (es : List (Key × Value)) :
    Value.withinEntries es = es.flatMap fun e => e.1.toValue :: e.2.within := by
  induction es with
  | nil => rfl
  | cons e es ih => rw [Value.withinEntries, ih, List.flatMap_cons, List.cons_append]

theorem Value.forall_within_array {P : Value → Prop} {vs : List Value} :
    (∀ u ∈ (Value.array vs).within, P u) ↔ P (.array vs) ∧ ∀ v ∈ vs, ∀ u ∈ v.within, P u := by
  rw [Value.within, List.forall_mem_cons, Value.withinList_eq, List.forall_mem_flatMap]

theorem Value.forall_within_hash {P : Value → Prop} {es : Entries Value} :
    (∀ u ∈ (Value.hash es).within, P u) ↔
      P (.hash es) ∧ ∀ e ∈ es, P e.1.toValue ∧ ∀ u ∈ e.2.within, P u := by
  rw [Value.within, List.forall_mem_cons, Value.withinEntries_eq, List.forall_mem_flatMap]
  simp only [List.forall_mem_cons]

end MonkeyLang
