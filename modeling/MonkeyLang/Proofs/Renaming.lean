/-
Names do not matter. A renaming gives different names to different names and
leaves those of the built-in functions alone. Names are only ever compared, so
each operation on values, frames and the stack commutes with the renaming, and
with the operations the steps. Only `puts` shows a program its own names, in the
text of functions; so a program that does not use it runs the same under other
names.
-/
import MonkeyLang.Proofs.Faults
import MonkeyLang.Proofs.Series

namespace MonkeyLang

structure Renaming where
  name : String → String
  injective {x y : String} : name x = name y → x = y
  builtin (b : Builtin) : name b.name = b.name

/-! ## Code -/

mutual

/-- The expression under other names. What strings say stays as it is. -/
def Expr.rename (ρ : Renaming) : Expr → Expr
  | .ident x => .ident (ρ.name x)
  | .integer n => .integer n
  | .boolean b => .boolean b
  | .string s => .string s
  | .array es => .array (Expr.renameList ρ es)
  | .hash es => .hash (Expr.renameEntries ρ es)
  | .unary op e => .unary op (e.rename ρ)
  | .binary l op r => .binary (l.rename ρ) op (r.rename ρ)
  | .assign x e => .assign (ρ.name x) (e.rename ρ)
  | .ifElse c b d => .ifElse (c.rename ρ) (Stmt.renameList ρ b) (Stmt.renameElse ρ d)
  | .forIn x e b => .forIn (ρ.name x) (e.rename ρ) (Stmt.renameList ρ b)
  | .whileDo c b => .whileDo (c.rename ρ) (Stmt.renameList ρ b)
  | .function xs b => .function (xs.map ρ.name) (Stmt.renameList ρ b)
  | .call f es => .call (f.rename ρ) (Expr.renameList ρ es)
  | .index c k => .index (c.rename ρ) (k.rename ρ)

def Expr.renameList (ρ : Renaming) : List Expr → List Expr
  | [] => []
  | e :: es => e.rename ρ :: Expr.renameList ρ es

def Expr.renameEntries (ρ : Renaming) : List (Expr × Expr) → List (Expr × Expr)
  | [] => []
  | (k, v) :: es => (k.rename ρ, v.rename ρ) :: Expr.renameEntries ρ es

def Stmt.rename (ρ : Renaming) : Stmt → Stmt
  | .define x e => .define (ρ.name x) (e.rename ρ)
  | .ret e => .ret (e.rename ρ)
  | .expr e => .expr (e.rename ρ)
  | .brk => .brk
  | .cont => .cont

def Stmt.renameList (ρ : Renaming) : List Stmt → List Stmt
  | [] => []
  | s :: ss => s.rename ρ :: Stmt.renameList ρ ss

def Stmt.renameElse (ρ : Renaming) : Option (List Stmt) → Option (List Stmt)
  | none => none
  | some b => some (Stmt.renameList ρ b)

end

/-- The statements under other names. -/
def Block.rename (ρ : Renaming) (b : Block) : Block := b.map (Stmt.rename ρ)

@[simp] theorem Expr.renameList_eq (ρ : Renaming) (es : List Expr) :
    Expr.renameList ρ es = es.map (Expr.rename ρ) := by
  induction es with
  | nil => rfl
  | cons e es ih => rw [Expr.renameList, ih, List.map_cons]

@[simp] theorem Expr.renameEntries_eq (ρ : Renaming) (es : List (Expr × Expr)) :
    Expr.renameEntries ρ es = es.map fun e => (e.1.rename ρ, e.2.rename ρ) := by
  induction es with
  | nil => rfl
  | cons e es ih => rw [Expr.renameEntries, ih, List.map_cons]

@[simp] theorem Stmt.renameList_eq (ρ : Renaming) (b : Block) :
    Stmt.renameList ρ b = Block.rename ρ b := by
  induction b with
  | nil => rfl
  | cons s b ih => rw [Stmt.renameList, ih, Block.rename, Block.rename, List.map_cons]

@[simp] theorem Stmt.renameElse_eq (ρ : Renaming) (d : Option Block) :
    Stmt.renameElse ρ d = d.map (Block.rename ρ) := by
  cases d with
  | none => rfl
  | some b => rw [Stmt.renameElse, Stmt.renameList_eq, Option.map_some]

/-! ## Values -/

/-- The error about other names. -/
def Fault.rename (ρ : Renaming) : Fault → Fault
  | .unbound x => .unbound (ρ.name x)
  | .unassignable x => .unassignable (ρ.name x)
  | .missingArguments xs => .missingArguments (xs.map ρ.name)
  | e => e

def Closure.rename (ρ : Renaming) (c : Closure) : Closure :=
  { c with parameters := c.parameters.map ρ.name, body := Block.rename ρ c.body }

mutual

/-- The value with other names in its functions. -/
def Value.rename (ρ : Renaming) : Value → Value
  | .null => .null
  | .integer n => .integer n
  | .boolean b => .boolean b
  | .string s => .string s
  | .array vs => .array (Value.renameList ρ vs)
  | .hash es => .hash (Value.renameEntries ρ es)
  | .function c => .function (c.rename ρ)
  | .builtin b => .builtin b
  | .signal s => .signal (s.rename ρ)

def Signal.rename (ρ : Renaming) : Signal → Signal
  | .fault e => .fault (e.rename ρ)
  | .returned v => .returned (v.rename ρ)
  | .brk => .brk
  | .cont => .cont

def Value.renameList (ρ : Renaming) : List Value → List Value
  | [] => []
  | v :: vs => v.rename ρ :: Value.renameList ρ vs

def Value.renameEntries (ρ : Renaming) : List (Key × Value) → List (Key × Value)
  | [] => []
  | (k, v) :: es => (k, v.rename ρ) :: Value.renameEntries ρ es

end

/-- The result of an operation under other names. -/
def renameResult (ρ : Renaming) : Except Fault Value → Except Fault Value
  | .ok v => .ok (v.rename ρ)
  | .error e => .error (e.rename ρ)

section

variable {α β : Type} (ρ : Renaming) (v : Value)

@[simp] theorem Value.renameList_eq (vs : List Value) :
    Value.renameList ρ vs = vs.map (Value.rename ρ) := by
  induction vs with
  | nil => rfl
  | cons v vs ih => rw [Value.renameList, ih, List.map_cons]

@[simp] theorem Value.renameEntries_eq (es : Entries Value) :
    Value.renameEntries ρ es = es.map fun e => (e.1, e.2.rename ρ) := by
  induction es with
  | nil => rfl
  | cons e es ih => rw [Value.renameEntries, ih, List.map_cons]

@[simp] theorem Value.tag_rename : (v.rename ρ).tag = v.tag := by
  cases v with
  | signal s => cases s <;> rfl
  | _ => rfl

@[simp] theorem Value.isTruthy_rename : (v.rename ρ).isTruthy = v.isTruthy := by cases v <;> rfl

@[simp] theorem Value.key?_rename : (v.rename ρ).key? = v.key? := by cases v <;> rfl

theorem Value.getD_rename (r : Option Value) :
    (r.map (Value.rename ρ)).getD .null = (r.getD .null).rename ρ := by
  cases r <;> rfl

theorem Entries.insert_map (g : α → β) (k : Key) (a : α) (es : Entries α) :
    Entries.insert k (g a) (es.map fun e => (e.1, g e.2)) =
      (Entries.insert k a es).map fun e => (e.1, g e.2) := by
  induction es with
  | nil => rfl
  | cons e es ih =>
    obtain ⟨l, b⟩ := e
    simp only [List.map_cons, Entries.insert]
    split
    · rfl
    · rfl
    · rw [ih, List.map_cons]

theorem Entries.get?_map (g : α → β) (es : Entries α) (k : Key) :
    Entries.get? (es.map fun e => (e.1, g e.2)) k = (Entries.get? es k).map g := by
  induction es with
  | nil => rfl
  | cons e es ih =>
    obtain ⟨l, b⟩ := e
    simp only [List.map_cons, Entries.get?_cons, ih]
    split <;> rfl

theorem UnaryOp.apply_rename (op : UnaryOp) :
    op.apply (v.rename ρ) = renameResult ρ (op.apply v) := by
  cases op with
  | not => simp only [UnaryOp.apply, Value.isTruthy_rename, renameResult, Value.rename]
  | negate =>
    cases v with
    | signal s => cases s <;> rfl
    | _ => rfl

theorem BinaryOp.onIntegers_rename (op : BinaryOp) (i j : Int64) :
    op.onIntegers i j = renameResult ρ (op.onIntegers i j) := by
  cases op with
  | divide =>
    simp only [BinaryOp.onIntegers]
    split <;> rfl
  | _ => rfl

theorem BinaryOp.refuse_rename (op : BinaryOp) (u : Value) :
    op.refuse (v.rename ρ) (u.rename ρ) = (op.refuse v u).rename ρ := by
  simp only [BinaryOp.refuse, Value.tag_rename]
  split <;> rfl

theorem BinaryOp.apply_rename (op : BinaryOp) (u : Value) :
    op.apply (v.rename ρ) (u.rename ρ) = renameResult ρ (op.apply v u) := by
  have hrefuse : Except.error (op.refuse (v.rename ρ) (u.rename ρ)) =
      renameResult ρ (.error (op.refuse v u)) := by rw [BinaryOp.refuse_rename]; rfl
  cases v <;> cases u <;> try exact hrefuse
  case integer.integer i j => exact op.onIntegers_rename ρ i j
  all_goals cases op <;> rfl

theorem Value.member_rename (u : Value) :
    (v.rename ρ).member (u.rename ρ) = renameResult ρ (v.member u) := by
  cases v with
  | array vs =>
    cases u with
    | integer n =>
      simp only [Value.rename, Value.renameList_eq, Value.member]
      split
      · rfl
      · rw [List.getElem?_map, Value.getD_rename]
        rfl
    | _ => rfl
  | hash es =>
    have hkey := u.key?_rename ρ
    have htag := u.tag_rename ρ
    simp only [Value.rename, Value.renameEntries_eq, Value.member, hkey, htag]
    split
    · rw [Entries.get?_map, Value.getD_rename]
      rfl
    · rfl
  | signal s => cases s <;> rfl
  | _ => rfl

/-- Apart from `puts` and `randint`, built-in functions leave the world alone. -/
theorem Builtin.call_world {b : Builtin} (hputs : b ≠ .puts) (hrandint : b ≠ .randint)
    (vs : List Value) (w : World) : (b.call vs w).2 = w := by
  cases b
  case puts => exact absurd rfl hputs
  case randint => exact absurd rfl hrandint
  all_goals
    simp only [Builtin.call]
    (repeat' split) <;> rfl

/-- Apart from `puts`, built-in functions see no names. -/
theorem Builtin.call_rename {b : Builtin} (hputs : b ≠ .puts) (hrandint : b ≠ .randint)
    (vs : List Value) (w w' : World) :
    (b.call (vs.map (Value.rename ρ)) w').1 = renameResult ρ (b.call vs w).1 := by
  cases b
  case puts => exact absurd rfl hputs
  case randint => exact absurd rfl hrandint
  case push =>
    rcases vs with _ | ⟨v, _ | ⟨u, _ | ⟨x, vs⟩⟩⟩
    · rfl
    · cases v <;> rfl
    · cases v with
      | array items => simp [Builtin.call, Value.rename, renameResult]
      | signal s => cases s <;> rfl
      | _ => rfl
    · simp [Builtin.call, renameResult, Fault.rename]
  all_goals
    rcases vs with _ | ⟨v, _ | ⟨u, vs⟩⟩
    · rfl
    · cases v with
      | array items =>
        cases items with
        | nil => rfl
        | cons u items =>
          simp [Builtin.call, Value.rename, renameResult, Fault.rename, Value.tag,
            List.getLast?_cons, Option.getD_map]
      | signal s => cases s <;> rfl
      | integer n => simp [Builtin.call, Value.rename, renameResult, Fault.rename, Value.tag]
      | _ => rfl
    · simp [Builtin.call, renameResult, Fault.rename]

end

/-! ## Frames -/

def Slots.rename (ρ : Renaming) (ss : Slots) : Slots :=
  ss.map fun s => (ρ.name s.1, s.2.rename ρ)

def Frame.rename (ρ : Renaming) (frame : Frame) : Frame :=
  { frame with slots := frame.slots.rename ρ }

def Store.rename (ρ : Renaming) (s : Store) : Store := ⟨s.frames.map (Frame.rename ρ)⟩

/-- The world with other names in its frames, and other random numbers to come. -/
def World.rename (ρ : Renaming) (draws : Nat → Nat) (w : World) : World :=
  { w with store := w.store.rename ρ, draws := draws }

section

variable {ρ : Renaming} {draws : Nat → Nat}

theorem Renaming.name_eq_iff {x y : String} : ρ.name x = ρ.name y ↔ x = y :=
  ⟨ρ.injective, congrArg ρ.name⟩

/-- Other names do not become those of built-in functions. -/
theorem Builtin.ofName?_rename (x : String) : Builtin.ofName? (ρ.name x) = Builtin.ofName? x := by
  have hiff : ∀ b : Builtin, b.name = ρ.name x ↔ b.name = x := by
    intro b
    have hname : ρ.name b.name = ρ.name x ↔ b.name = x := Renaming.name_eq_iff
    rwa [ρ.builtin b] at hname
  simp only [Builtin.ofName?, hiff]

theorem Slots.get?_rename (ss : Slots) (x : String) :
    (ss.rename ρ).get? (ρ.name x) = (ss.get? x).map (Value.rename ρ) := by
  simp only [Slots.get?, Slots.rename, List.find?_map, Option.map_map, Function.comp_def,
    Renaming.name_eq_iff]

theorem Slots.insert_rename (x : String) (v : Value) (ss : Slots) :
    Slots.insert (ρ.name x) (v.rename ρ) (ss.rename ρ) = (Slots.insert x v ss).rename ρ := by
  induction ss with
  | nil => rfl
  | cons s ss ih =>
    obtain ⟨y, u⟩ := s
    simp only [Slots.rename, List.map_cons, Slots.insert, Renaming.name_eq_iff] at ih ⊢
    split
    · rfl
    · rw [ih, List.map_cons]

theorem Slots.ofList_rename (bs : List (String × Value)) :
    Slots.ofList (Slots.rename ρ bs) = (Slots.ofList bs).rename ρ := by
  have hfold : ∀ ss : Slots,
      bs.foldl (fun ss b => Slots.insert (ρ.name b.1) (b.2.rename ρ) ss) (ss.rename ρ) =
        (bs.foldl (fun ss b => Slots.insert b.1 b.2 ss) ss).rename ρ := by
    induction bs with
    | nil => exact fun _ => rfl
    | cons b bs ih =>
      intro ss
      rw [List.foldl_cons, List.foldl_cons, Slots.insert_rename, ih]
  rw [Slots.ofList, Slots.rename, List.foldl_map]
  exact hfold []

theorem Slots.zip_rename (xs : List String) (vs : List Value) :
    (xs.map ρ.name).zip (vs.map (Value.rename ρ)) = Slots.rename ρ (xs.zip vs) := by
  rw [List.zip_map]
  rfl

namespace Store

theorem findFrom_rename (s : Store) (x : String) (n : Nat) (f : FrameId) :
    (s.rename ρ).findFrom (ρ.name x) n f =
      (s.findFrom x n f).map fun r => (r.1, r.2.rename ρ) := by
  induction n generalizing f with
  | zero => rfl
  | succ n ih =>
    simp only [findFrom, rename, Array.getElem?_map]
    cases s.frames[f]? with
    | none => rfl
    | some frame =>
      simp only [Option.map_some, Option.bind_eq_bind, Option.bind_some, Frame.rename,
        Slots.get?_rename]
      cases frame.slots.get? x with
      | some v => rfl
      | none =>
        cases frame.parent with
        | none => rfl
        | some p => exact ih p

theorem find?_rename (s : Store) (f : FrameId) (x : String) :
    (s.rename ρ).find? f (ρ.name x) = (s.find? f x).map fun r => (r.1, r.2.rename ρ) := by
  rw [find?, find?, ← findFrom_rename, rename, Array.size_map]

theorem get?_rename (s : Store) (f : FrameId) (x : String) :
    (s.rename ρ).get? f (ρ.name x) = (s.get? f x).map (Value.rename ρ) := by
  rw [get?, get?, find?_rename, Option.map_map, Option.map_map]
  rfl

theorem resolve?_rename (s : Store) (f : FrameId) (x : String) :
    (s.rename ρ).resolve? f (ρ.name x) = s.resolve? f x := by
  rw [resolve?, resolve?, find?_rename, Option.map_map]
  rfl

theorem define_rename (s : Store) (f : FrameId) (x : String) (v : Value) :
    (s.rename ρ).define f (ρ.name x) (v.rename ρ) = (s.define f x v).rename ρ := by
  rw [define, define, rename, rename, mk.injEq]
  refine Array.ext_getElem? fun g => ?_
  simp only [Array.getElem?_modify, Array.getElem?_map]
  split
  · cases s.frames[g]? with
    | none => rfl
    | some frame => simp only [Option.map_some, Frame.rename, Slots.insert_rename]
  · rfl

end Store

namespace World

variable (w : World)

theorem define_rename (f : FrameId) (x : String) (v : Value) :
    (w.rename ρ draws).define f (ρ.name x) (v.rename ρ) = (w.define f x v).rename ρ draws := by
  simp only [World.define, World.rename, Store.define_rename]

theorem assign_rename (f : FrameId) (x : String) (v : Value) :
    (w.rename ρ draws).assign f (ρ.name x) (v.rename ρ) =
      ((w.assign f x v).1, (w.assign f x v).2.rename ρ draws) := by
  simp only [World.assign, Store.assign, World.rename, Store.resolve?_rename, Store.define_rename]
  split <;> rfl

theorem newFrame_rename (p : Option FrameId) (ss : Slots) :
    (w.rename ρ draws).newFrame p (ss.rename ρ) =
      ((w.newFrame p ss).1, (w.newFrame p ss).2.rename ρ draws) := by
  simp only [World.newFrame, Store.newFrame, World.rename, Store.rename, Array.size_map,
    Array.map_push]
  rfl

end World

end

/-! ## Machines -/

def Control.rename (ρ : Renaming) : Control → Control
  | .expr e f => .expr (e.rename ρ) f
  | .stmt s f => .stmt (s.rename ρ) f
  | .block b f => .block (Block.rename ρ b) f
  | .apply callee arguments => .apply (callee.rename ρ) (arguments.map (Value.rename ρ))
  | .done result => .done (result.map (Value.rename ρ))
  | .raised s => .raised (s.rename ρ)

def Pending.rename (ρ : Renaming) : Pending → Pending
  | .more b f => .more (Block.rename ρ b) f
  | .define x f => .define (ρ.name x) f
  | .ret => .ret
  | .item before after f => .item (before.map (Value.rename ρ)) (after.map (Expr.rename ρ)) f
  | .entryKey before value after f =>
    .entryKey (before.map fun e => (e.1, e.2.rename ρ)) (value.rename ρ)
      (after.map fun e => (e.1.rename ρ, e.2.rename ρ)) f
  | .entryValue before k after f =>
    .entryValue (before.map fun e => (e.1, e.2.rename ρ)) k
      (after.map fun e => (e.1.rename ρ, e.2.rename ρ)) f
  | .unary op => .unary op
  | .binaryLeft op right f => .binaryLeft op (right.rename ρ) f
  | .binaryRight left op => .binaryRight (left.rename ρ) op
  | .assign x f => .assign (ρ.name x) f
  | .choose b d f => .choose (Block.rename ρ b) (d.map (Block.rename ρ)) f
  | .chosen => .chosen
  | .iterate x body f => .iterate (ρ.name x) (Block.rename ρ body) f
  | .forPass x after body f result =>
    .forPass (ρ.name x) (after.map (Value.rename ρ)) (Block.rename ρ body) f (result.rename ρ)
  | .test c body f result => .test (c.rename ρ) (Block.rename ρ body) f (result.rename ρ)
  | .whilePass c body f result =>
    .whilePass (c.rename ρ) (Block.rename ρ body) f (result.rename ρ)
  | .callee after f => .callee (after.map (Expr.rename ρ)) f
  | .argument v before after f =>
    .argument (v.rename ρ) (before.map (Value.rename ρ)) (after.map (Expr.rename ρ)) f
  | .call => .call
  | .collection e f => .collection (e.rename ρ) f
  | .key v => .key (v.rename ρ)

namespace Machine

def rename (ρ : Renaming) (draws : Nat → Nat) (m : Machine) : Machine :=
  ⟨m.control.rename ρ, m.stack.map (Pending.rename ρ), m.world.rename ρ draws⟩

section

variable (ρ : Renaming) (draws : Nat → Nat) (limit : Option Nat) (f : FrameId) (k : List Pending)
  (w : World)

theorem settle_rename (v : Value) : settle (v.rename ρ) = (settle v).rename ρ := by
  cases v <;> rfl

theorem settleResult_rename (r : Except Fault Value) :
    settleResult (renameResult ρ r) = (settleResult r).rename ρ := by
  cases r with
  | ok v => exact settle_rename ρ v
  | error e => rfl

theorem items_rename (before : List Value) (after : List Expr) :
    items (before.map (Value.rename ρ)) (after.map (Expr.rename ρ)) f (k.map (Pending.rename ρ))
      (w.rename ρ draws) = (items before after f k w).rename ρ draws := by
  cases after with
  | nil => simp [items, rename, Control.rename, Value.rename]
  | cons e es => rfl

theorem entries_rename (before : Entries Value) (after : List (Expr × Expr)) :
    entries (before.map fun e => (e.1, e.2.rename ρ))
      (after.map fun e => (e.1.rename ρ, e.2.rename ρ)) f (k.map (Pending.rename ρ))
      (w.rename ρ draws) = (entries before after f k w).rename ρ draws := by
  cases after with
  | nil => simp [entries, rename, Control.rename, Value.rename]
  | cons e es => rfl

theorem arguments_rename (callee : Value) (before : List Value) (after : List Expr) :
    arguments (callee.rename ρ) (before.map (Value.rename ρ)) (after.map (Expr.rename ρ)) f
      (k.map (Pending.rename ρ)) (w.rename ρ draws) =
      (arguments callee before after f k w).rename ρ draws := by
  cases after with
  | nil => simp [arguments, rename, Control.rename]
  | cons e es => rfl

theorem forPass_rename (x : String) (after : List Value) (body : Block) (result : Value) :
    forPass (ρ.name x) (after.map (Value.rename ρ)) (Block.rename ρ body) f (result.rename ρ)
      (k.map (Pending.rename ρ)) (w.rename ρ draws) =
      (forPass x after body f result k w).rename ρ draws := by
  cases after with
  | nil => rfl
  | cons v vs =>
    have hslots : Slots.ofList [(ρ.name x, v.rename ρ)] = (Slots.ofList [(x, v)]).rename ρ := rfl
    simp only [List.map_cons, forPass, hslots, World.newFrame_rename]
    rfl

theorem evaluate_rename (e : Expr) :
    evaluate (e.rename ρ) f (k.map (Pending.rename ρ)) (w.rename ρ draws) =
      (evaluate e f k w).rename ρ draws := by
  cases e with
  | ident x =>
    have hget : (w.rename ρ draws).store.get? f (ρ.name x) =
        (w.store.get? f x).map (Value.rename ρ) := w.store.get?_rename f x
    simp only [Expr.rename, evaluate, hget, Builtin.ofName?_rename]
    cases w.store.get? f x with
    | some v => simp only [Option.map_some, settle_rename, rename]
    | none => cases Builtin.ofName? x <;> rfl
  | array es =>
    rw [Expr.rename, Expr.renameList_eq]
    exact items_rename ρ draws f k w [] es
  | hash es =>
    rw [Expr.rename, Expr.renameEntries_eq]
    exact entries_rename ρ draws f k w [] es
  | function | forIn | whileDo =>
    rw [Expr.rename, Stmt.renameList_eq]
    rfl
  | ifElse c b d =>
    rw [Expr.rename, Stmt.renameList_eq, Stmt.renameElse_eq]
    rfl
  | call g es =>
    rw [Expr.rename, Expr.renameList_eq]
    rfl
  | _ => rfl

theorem execute_rename (s : Stmt) :
    execute (s.rename ρ) f (k.map (Pending.rename ρ)) (w.rename ρ draws) =
      (execute s f k w).rename ρ draws := by
  cases s <;> rfl

theorem statements_rename (b : Block) :
    statements (Block.rename ρ b) f (k.map (Pending.rename ρ)) (w.rename ρ draws) =
      (statements b f k w).rename ρ draws := by
  cases b <;> rfl

theorem call_rename (callee : Value) (vs : List Value)
    (hputs : callee ≠ .builtin .puts) (hrandint : callee ≠ .builtin .randint) :
    call limit (callee.rename ρ) (vs.map (Value.rename ρ)) (k.map (Pending.rename ρ))
      (w.rename ρ draws) = (call limit callee vs k w).rename ρ draws := by
  cases callee with
  | function c =>
    simp only [Value.rename, Closure.rename, call, List.length_map, Slots.zip_rename,
      Slots.ofList_rename, World.newFrame_rename, ← List.map_drop]
    split
    · rfl
    · have hdepth : (w.rename ρ draws).depth = w.depth := rfl
      rw [hdepth]
      cases limit.filter (· ≤ w.depth) <;> rfl
  | builtin b =>
    have hputs : b ≠ .puts := fun h => hputs (h ▸ rfl)
    have hrandint : b ≠ .randint := fun h => hrandint (h ▸ rfl)
    simp only [Value.rename, call, Builtin.call_rename ρ hputs hrandint vs w,
      Builtin.call_world hputs hrandint, settleResult_rename]
    rfl
  | signal s => cases s <;> rfl
  | _ => rfl

theorem resume_rename (result : Option Value) (p : Pending) :
    resume (result.map (Value.rename ρ)) (p.rename ρ) (k.map (Pending.rename ρ))
      (w.rename ρ draws) = (resume result p k w).rename ρ draws := by
  have hv := Value.getD_rename ρ result
  cases p with
  | more b f => cases b <;> rfl
  | define x f =>
    simp only [Pending.rename, resume, hv, World.define_rename]
    rfl
  | item before after f =>
    simp only [Pending.rename, resume, hv, ← List.map_cons]
    exact items_rename ρ draws f k w _ after
  | entryKey before value after f =>
    simp only [Pending.rename, resume, hv, Value.key?_rename, Value.tag_rename]
    cases (result.getD .null).key? <;> rfl
  | entryValue before key after f =>
    simp only [Pending.rename, resume, hv, Entries.insert_map]
    exact entries_rename ρ draws f k w _ after
  | unary op =>
    simp only [Pending.rename, resume, hv, UnaryOp.apply_rename, settleResult_rename]
    rfl
  | binaryRight left op =>
    simp only [Pending.rename, resume, hv, BinaryOp.apply_rename, settleResult_rename]
    rfl
  | assign x f =>
    simp only [Pending.rename, resume, hv, World.assign_rename]
    cases (w.assign f x (result.getD .null)).1 <;> rfl
  | choose b d f =>
    simp only [Pending.rename, resume, hv, Value.isTruthy_rename]
    cases (result.getD .null).isTruthy with
    | true => rfl
    | false => cases d <;> rfl
  | iterate x body f =>
    simp only [Pending.rename, resume, hv]
    cases result.getD .null with
    | array vs =>
      rw [Value.rename, Value.renameList_eq]
      exact forPass_rename ρ draws f k w x vs body .null
    | signal s => cases s <;> rfl
    | _ => rfl
  | forPass x after body f before =>
    simp only [Pending.rename, resume, Option.getD_map]
    exact forPass_rename ρ draws f k w x after body _
  | test c body f before =>
    have hframe : (w.rename ρ draws).newFrame (some f) [] =
        ((w.newFrame (some f) []).1, (w.newFrame (some f) []).2.rename ρ draws) :=
      w.newFrame_rename (some f) []
    simp only [Pending.rename, resume, hv, Value.isTruthy_rename, hframe]
    cases (result.getD .null).isTruthy <;> rfl
  | whilePass c body f before =>
    simp only [Pending.rename, resume, Option.getD_map]
    rfl
  | callee args f =>
    simp only [Pending.rename, resume, hv]
    exact arguments_rename ρ draws f k w _ [] args
  | argument callee before after f =>
    simp only [Pending.rename, resume, hv, ← List.map_cons]
    exact arguments_rename ρ draws f k w callee _ after
  | key collection =>
    simp only [Pending.rename, resume, hv, Value.member_rename, settleResult_rename]
    rfl
  | _ =>
    simp only [Pending.rename, resume, hv]
    rfl

theorem unwind_rename (s : Signal) (p : Pending) :
    unwind (s.rename ρ) (p.rename ρ) (k.map (Pending.rename ρ)) (w.rename ρ draws) =
      (unwind s p k w).rename ρ draws := by
  cases p with
  | forPass x after body f before =>
    cases s with
    | cont => exact forPass_rename ρ draws f k w x after body before
    | _ => rfl
  | call =>
    cases s with
    | returned v =>
      simp only [Signal.rename, Pending.rename, unwind, settle_rename]
      rfl
    | _ => rfl
  | _ => cases s <;> rfl

/-- A step under other names, unless it calls `puts` or `randint`. -/
theorem step_rename {m : Machine}
    (hputs : ∀ vs, m.control ≠ .apply (.builtin .puts) vs)
    (hrandint : ∀ vs, m.control ≠ .apply (.builtin .randint) vs) :
    (m.rename ρ draws).step limit = (m.step limit).rename ρ draws := by
  obtain ⟨c, k, w⟩ := m
  cases c with
  | expr e f => exact evaluate_rename ρ draws f k w e
  | stmt s f => exact execute_rename ρ draws f k w s
  | block b f => exact statements_rename ρ draws f k w b
  | apply callee vs =>
    exact call_rename ρ draws limit k w callee vs (fun h => hputs vs (h ▸ rfl))
      (fun h => hrandint vs (h ▸ rfl))
  | done result =>
    cases k with
    | nil => rfl
    | cons p k => exact resume_rename ρ draws k w result p
  | raised s =>
    cases k with
    | nil => rfl
    | cons p k => exact unwind_rename ρ draws k w s p

end

end Machine

/-! ## Programs -/

/-- No code names `puts` or `randint`, so nobody gets hold of them. -/
def Law.quiet : Law :=
  { Law.free with
    code := fun e => e ≠ .ident "puts" ∧ e ≠ .ident "randint"
    builtin := fun b => b ≠ .puts ∧ b ≠ .randint
    text_literal := fun _ => trivial
    builtin_named := fun {x b} hx hb => by
      have hname : b.name = x := by simpa using List.find?_some hb
      subst hname
      exact ⟨fun h => hx.1 (h ▸ rfl), fun h => hx.2 (h ▸ rfl)⟩ }

/-- The event prints nothing. -/
def Event.IsSilent : Event → Prop
  | .print _ => False
  | _ => True

theorem Event.output_foldl {es : List Event} (h : ∀ e ∈ es, e.IsSilent) (w : World) :
    (es.foldl (fun w e => e.apply w) w).output = w.output := by
  induction es generalizing w with
  | nil => rfl
  | cons e es ih =>
    obtain ⟨he, hes⟩ := List.forall_mem_cons.1 h
    rw [List.foldl_cons, ih hes]
    cases e with
    | print t => exact absurd he id
    | _ => rfl

namespace Machine

section

variable {limit : Option Nat} {m : Machine}

theorem silent_pass (x : String) (after : List Value) (f : FrameId) :
    ∀ e ∈ passEvents x after f, e.IsSilent := by
  cases after <;> simp [passEvents, Event.IsSilent]

theorem silent_resume (v : Value) (p : Pending) (w : World) :
    ∀ e ∈ resumeEvents v p w, e.IsSilent := by
  cases p with
  | define x f => simp [resumeEvents, Event.IsSilent]
  | assign x f =>
    simp only [resumeEvents]
    split <;> simp [Event.IsSilent]
  | iterate x body f =>
    simp only [resumeEvents]
    split
    · exact silent_pass x _ f
    · exact List.forall_mem_nil _
  | forPass x after body f before => exact silent_pass x after f
  | test c body f before =>
    simp only [resumeEvents]
    split <;> simp [Event.IsSilent]
  | _ => exact List.forall_mem_nil _

theorem silent_call {callee : Value} (h : callee ≠ .builtin .puts) (vs : List Value) (w : World) :
    ∀ e ∈ callEvents limit callee vs w, e.IsSilent := by
  refine List.forall_mem_cons.2 ⟨trivial, ?_⟩
  split
  · split
    · exact List.forall_mem_nil _
    · split <;> simp [Event.IsSilent]
  · exact absurd rfl h
  · exact List.forall_mem_nil _

theorem silent_events (h : ∀ vs, m.control ≠ .apply (.builtin .puts) vs) :
    ∀ e ∈ m.events limit, e.IsSilent := by
  unfold events
  split
  · exact silent_call (fun hc => h _ (congrArg (Control.apply · _) hc)) _ _
  · exact silent_resume _ _ _
  · exact silent_pass _ _ _
  · exact List.forall_mem_nil _

theorem Obeys.ne_builtin (h : m.Obeys .quiet) (vs : List Value) :
    m.control ≠ .apply (.builtin .puts) vs ∧ m.control ≠ .apply (.builtin .randint) vs := by
  have hquiet : ∀ b : Builtin, m.control = .apply (.builtin b) vs → b ≠ .puts ∧ b ≠ .randint := by
    intro b hc
    have hcontrol := h.control
    rw [hc] at hcontrol
    exact hcontrol.1.admits
  exact ⟨fun hc => (hquiet _ hc).1 rfl, fun hc => (hquiet _ hc).2 rfl⟩

theorem Obeys.after_rename (h : m.Obeys .quiet) (ρ : Renaming) (draws : Nat → Nat) (n : Nat) :
    (m.rename ρ draws).after limit n = (m.after limit n).rename ρ draws := by
  induction n generalizing m with
  | zero => rfl
  | succ n ih =>
    have hstep : (m.rename ρ draws).step limit = (m.step limit).rename ρ draws :=
      step_rename ρ draws limit (fun vs => (h.ne_builtin vs).1) fun vs => (h.ne_builtin vs).2
    rw [Machine.after, Machine.after, hstep, ih (h.step limit)]

theorem Obeys.output_after (h : m.Obeys .quiet) (n : Nat) :
    (m.after limit n).world.output = m.world.output := by
  induction n generalizing m with
  | zero => rfl
  | succ n ih =>
    rw [Machine.after, ih (h.step limit), (step_events limit m).2]
    exact Event.output_foldl (silent_events fun vs => (h.ne_builtin vs).1) _

def Outcome.rename (ρ : Renaming) : Outcome → Outcome
  | .ok result => .ok (result.map (Value.rename ρ))
  | .error s => .error (s.rename ρ)

theorem outcome?_rename (ρ : Renaming) (draws : Nat → Nat) (m : Machine) :
    (m.rename ρ draws).outcome? = m.outcome?.map (Outcome.rename ρ) := by
  obtain ⟨c, k, w⟩ := m
  cases c <;> cases k <;> rfl

theorem Outcome.value_rename (ρ : Renaming) (o : Outcome) :
    (o.rename ρ).value = o.value.rename ρ := by
  cases o with
  | ok result => exact Value.getD_rename ρ result
  | error s => cases s <;> rfl

theorem Obeys.rename_run (h : m.Obeys .quiet) (ρ : Renaming) (draws : Nat → Nat) (n : Nat) :
    (m.rename ρ draws).run limit n =
      (m.run limit n).map fun r => (r.1.rename ρ, r.2.rename ρ draws) := by
  rw [run_eq, run_eq, h.after_rename, outcome?_rename, Option.map_map, Option.map_map]
  rfl

end

end Machine

theorem Session.world_rename (ρ : Renaming) (draws draws' : Nat → Nat) :
    (fresh draws).world.rename ρ draws' = (fresh draws').world := by
  simp [fresh, World.newFrame, Store.newFrame, World.fresh, Store.empty, World.rename,
    Store.rename, Frame.rename, Slots.rename]

/-- A program without `puts` and `randint` does the same under other names, step by step, and
prints nothing. The random numbers to come may be others. -/
theorem Program.run_rename (ρ : Renaming) {p : Program} (hputs : .ident "puts" ∉ Stmt.withinList p)
    (hrandint : .ident "randint" ∉ Stmt.withinList p) (limit : Option Nat) (n : Nat)
    (draws draws' : Nat → Nat) :
    let s := Session.fresh draws
    let s' := Session.fresh draws'
    Program.run limit n (Block.rename ρ p) s'.globals s'.world =
      (p.run limit n s.globals s.world).map (fun r => (r.1.rename ρ, r.2.rename ρ draws')) ∧
    ((Machine.load p s.globals s.world).after limit n).world.output = "" ∧
    ((Machine.load (Block.rename ρ p) s'.globals s'.world).after limit n).world.output = "" := by
  intro s s'
  have hp : Block.Obeys .quiet p := by
    refine Block.obeys_iff.1 fun e he => ⟨?_, ?_⟩
    · rintro rfl
      exact hputs he
    · rintro rfl
      exact hrandint he
  have hs : s.Obeys .quiet := Session.obeys_fresh rfl draws
  have hm : (Machine.load p s.globals s.world).Obeys .quiet :=
    ⟨hs.world, ⟨hp, hs.globals⟩, List.forall_mem_nil _⟩
  have hload : (Machine.load p s.globals s.world).rename ρ draws' =
      Machine.load (Block.rename ρ p) s'.globals s'.world :=
    congrArg (Machine.load (Block.rename ρ p) s.globals) (Session.world_rename ρ draws draws')
  refine ⟨?_, hm.output_after n, ?_⟩
  · rw [Program.run, Program.run, ← hload, hm.rename_run, Option.map_map, Option.map_map]
    simp only [Function.comp_def, Machine.Outcome.value_rename]
  · rw [← hload, hm.after_rename]
    exact hm.output_after n

/-- Two names that no built-in function has change places. -/
def Renaming.exchange (x y : String) (hx : ∀ b : Builtin, b.name ≠ x)
    (hy : ∀ b : Builtin, b.name ≠ y) : Renaming where
  name z := if z = x then y else if z = y then x else z
  injective {z z'} h := by grind
  builtin b := by rw [if_neg (hx b), if_neg (hy b)]

/-- A parameter hides the global variable of its name; the other name is bound nowhere. -/
theorem Program.run_rename_exchange :
    let p := (parse "let up = 1; let f = fn(up) { down }; f(up)").program
    let s := Session.fresh fun _ => 0
    let ρ := Renaming.exchange "up" "down" (by intro b; cases b <;> decide)
      (by intro b; cases b <;> decide)
    ∃ v w, Program.run none 30 (Block.rename ρ p) s.globals s.world =
      some (v, w) ∧ v.display = "ERROR: identifier not found: up" ∧ w.output = "" := by
  intro p s ρ
  have hquiet : Expr.ident "puts" ∉ Stmt.withinList p ∧ .ident "randint" ∉ Stmt.withinList p := by
    decide +kernel
  have hrun : (p.run none 30 s.globals s.world).map
      (fun r => ((r.1.rename ρ).display, r.2.output)) =
        some ("ERROR: identifier not found: up", "") := by
    decide +kernel
  obtain ⟨⟨v, w⟩, hr, hv⟩ := Option.map_eq_some_iff.1 hrun
  obtain ⟨hdisplay, houtput⟩ := Prod.mk.inj hv
  obtain ⟨hrename, -, -⟩ :=
    Program.run_rename ρ hquiet.1 hquiet.2 none 30 (fun _ => 0) fun _ => 0
  rw [hr] at hrename
  exact ⟨v.rename ρ, w.rename ρ fun _ => 0, hrename, hdisplay, houtput⟩

end MonkeyLang
