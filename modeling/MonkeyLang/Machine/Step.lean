/-
The steps of the machine: where the evaluation of each kind of expression and
statement begins, how it goes on once a part is done, and what a signal does to
what was waiting.
-/
import MonkeyLang.Builtin.Call
import MonkeyLang.Machine
import MonkeyLang.Value.Operator

namespace MonkeyLang

namespace Machine

/-- A value that comes out of a variable, a collection or a call. A signal that was kept there is
let loose. -/
def settle : Value → Control
  | .signal s => .raised s
  | v => .done (some v)

def settleResult : Except Fault Value → Control
  | .ok v => settle v
  | .error e => .raised (.fault e)

def raise (e : Fault) : Control := .raised (.fault e)

/-- The items of an array literal; `before` holds the values of the earlier ones, last first. -/
def items (before : List Value) (after : List Expr) (f : FrameId) (k : List Pending) (w : World) :
    Machine :=
  match after with
  | [] => ⟨.done (some (.array before.reverse)), k, w⟩
  | e :: es => ⟨.expr e f, .item before es f :: k, w⟩

def entries (before : Entries Value) (after : List (Expr × Expr)) (f : FrameId) (k : List Pending)
    (w : World) : Machine :=
  match after with
  | [] => ⟨.done (some (.hash before)), k, w⟩
  | (key, value) :: es => ⟨.expr key f, .entryKey before value es f :: k, w⟩

def arguments (callee : Value) (before : List Value) (after : List Expr) (f : FrameId)
    (k : List Pending) (w : World) : Machine :=
  match after with
  | [] => ⟨.apply callee before.reverse, k, w⟩
  | e :: es => ⟨.expr e f, .argument callee before es f :: k, w⟩

/-- The next pass of a `for`, in a frame of its own with the loop variable. -/
def forPass (name : String) (after : List Value) (body : Block) (f : FrameId) (result : Value)
    (k : List Pending) (w : World) : Machine :=
  match after with
  | [] => ⟨.done (some result), k, w⟩
  | v :: vs =>
    let (g, w) := w.newFrame (some f) (.ofList [(name, v)])
    ⟨.block body g, .forPass name vs body f result :: k, w⟩

/-- Begins to evaluate an expression. -/
def evaluate (e : Expr) (f : FrameId) (k : List Pending) (w : World) : Machine :=
  match e with
  | .ident name =>
    match w.store.get? f name with
    | some v => ⟨settle v, k, w⟩
    | none =>
      match Builtin.ofName? name with
      | some b => ⟨.done (some (.builtin b)), k, w⟩
      | none => ⟨raise (.unbound name), k, w⟩
  | .integer n => ⟨.done (some (.integer n)), k, w⟩
  | .boolean b => ⟨.done (some (.boolean b)), k, w⟩
  | .string s => ⟨.done (some (.string s)), k, w⟩
  | .array es => items [] es f k w
  | .hash es => entries [] es f k w
  | .unary op e => ⟨.expr e f, .unary op :: k, w⟩
  | .binary l op r => ⟨.expr l f, .binaryLeft op r f :: k, w⟩
  | .assign name e => ⟨.expr e f, .assign name f :: k, w⟩
  | .ifElse condition consequence alternative =>
    ⟨.expr condition f, .choose consequence alternative f :: k, w⟩
  | .forIn name iterable body => ⟨.expr iterable f, .iterate name body f :: k, w⟩
  | .whileDo condition body => ⟨.expr condition f, .test condition body f .null :: k, w⟩
  | .function parameters body =>
    let (v, w) := w.newFunction parameters body f
    ⟨.done (some v), k, w⟩
  | .call callee arguments => ⟨.expr callee f, .callee arguments f :: k, w⟩
  | .index collection key => ⟨.expr collection f, .collection key f :: k, w⟩

/-- Begins to execute a statement. -/
def execute (s : Stmt) (f : FrameId) (k : List Pending) (w : World) : Machine :=
  match s with
  | .define name e => ⟨.expr e f, .define name f :: k, w⟩
  | .ret e => ⟨.expr e f, .ret :: k, w⟩
  | .expr e => ⟨.expr e f, k, w⟩
  | .brk => ⟨.raised .brk, k, w⟩
  | .cont => ⟨.raised .cont, k, w⟩

/-- The statements of a block, all but the last for their effect only. -/
def statements (b : Block) (f : FrameId) (k : List Pending) (w : World) : Machine :=
  match b with
  | [] => ⟨.done none, k, w⟩
  | s :: b => ⟨.stmt s f, .more b f :: k, w⟩

/-- Calls a value. A function's body runs in a new frame below the one that the function was made
in; arguments beyond the parameters are dropped. At most `limit` calls may be going on at once. -/
def call (limit : Option Nat) (callee : Value) (arguments : List Value) (k : List Pending)
    (w : World) : Machine :=
  match callee with
  | .function c =>
    if arguments.length < c.parameters.length then
      ⟨raise (.missingArguments (c.parameters.drop arguments.length)), k, w⟩
    else
      match limit.filter (· ≤ w.depth) with
      | some n => ⟨raise (.tooDeep n), k, w⟩
      | none =>
        let (g, w) := w.newFrame (some c.frame) (.ofList (c.parameters.zip arguments))
        ⟨.block c.body g, .call :: k, { w with depth := w.depth + 1 }⟩
  | .builtin b =>
    let (r, w) := b.call arguments w
    ⟨settleResult r, k, w⟩
  | v => ⟨raise (.notCallable v.tag), k, w⟩

/-- Goes on with what was waiting for a value. Where a value is wanted and none is there, as after
an `if` that ends in a definition, it is null. -/
def resume (result : Option Value) (p : Pending) (k : List Pending) (w : World) : Machine :=
  let v := result.getD .null
  match p with
  | .more [] _ => ⟨.done result, k, w⟩
  | .more (s :: b) f => ⟨.stmt s f, .more b f :: k, w⟩
  | .define name f => ⟨.done none, k, w.define f name v⟩
  | .ret => ⟨.raised (.returned v), k, w⟩
  | .item before after f => items (v :: before) after f k w
  | .entryKey before value after f =>
    match v.key? with
    | some key => ⟨.expr value f, .entryValue before key after f :: k, w⟩
    | none => ⟨raise (.notHashable v.tag), k, w⟩
  | .entryValue before key after f => entries (before.insert key v) after f k w
  | .unary op => ⟨settleResult (op.apply v), k, w⟩
  | .binaryLeft op right f => ⟨.expr right f, .binaryRight v op :: k, w⟩
  | .binaryRight left op => ⟨settleResult (op.apply left v), k, w⟩
  | .assign name f =>
    let (found, w) := w.assign f name v
    ⟨if found then .done (some v) else raise (.unassignable name), k, w⟩
  | .choose consequence alternative f =>
    if v.isTruthy then ⟨.block consequence f, .chosen :: k, w⟩
    else
      match alternative with
      | some b => ⟨.block b f, .chosen :: k, w⟩
      | none => ⟨.done (some .null), k, w⟩
  | .chosen => ⟨.done (some v), k, w⟩
  | .iterate name body f =>
    match v with
    | .array vs => forPass name vs body f .null k w
    | _ => ⟨raise (.notIterable v.tag), k, w⟩
  | .forPass name after body f before => forPass name after body f (result.getD before) k w
  | .test condition body f before =>
    if v.isTruthy then
      let (g, w) := w.newFrame (some f) []
      ⟨.block body g, .whilePass condition body f before :: k, w⟩
    else ⟨.done (some before), k, w⟩
  | .whilePass condition body f before =>
    ⟨.expr condition f, .test condition body f (result.getD before) :: k, w⟩
  | .callee args f => arguments v [] args f k w
  | .argument callee before after f => arguments callee (v :: before) after f k w
  | .call => ⟨.done (some v), k, { w with depth := w.depth - 1 }⟩
  | .collection key f => ⟨.expr key f, .key v :: k, w⟩
  | .key collection => ⟨settleResult (collection.member v), k, w⟩

/-- Drops what was waiting for a value, unless it catches the signal. -/
def unwind (s : Signal) (p : Pending) (k : List Pending) (w : World) : Machine :=
  match p with
  | .forPass name after body f result =>
    match s with
    | .brk => ⟨.done (some .null), k, w⟩
    | .cont => forPass name after body f result k w
    | _ => ⟨.raised s, k, w⟩
  | .whilePass condition body f result =>
    match s with
    | .brk => ⟨.done (some .null), k, w⟩
    | .cont => ⟨.expr condition f, .test condition body f result :: k, w⟩
    | _ => ⟨.raised s, k, w⟩
  | .call =>
    let w := { w with depth := w.depth - 1 }
    match s with
    | .returned v => ⟨settle v, k, w⟩
    | .brk | .cont => ⟨raise .outsideLoop, k, w⟩
    | .fault _ => ⟨.raised s, k, w⟩
  | _ => ⟨.raised s, k, w⟩

/-- One step. A machine with nothing left to do stays as it is. -/
def step (limit : Option Nat) (m : Machine) : Machine :=
  match m with
  | ⟨.expr e f, k, w⟩ => evaluate e f k w
  | ⟨.stmt s f, k, w⟩ => execute s f k w
  | ⟨.block b f, k, w⟩ => statements b f k w
  | ⟨.apply callee arguments, k, w⟩ => call limit callee arguments k w
  | ⟨.done result, p :: k, w⟩ => resume result p k w
  | ⟨.raised s, p :: k, w⟩ => unwind s p k w
  | ⟨.done result, [], w⟩ => ⟨.done result, [], w⟩
  | ⟨.raised s, [], w⟩ => ⟨.raised s, [], w⟩

end Machine

end MonkeyLang
