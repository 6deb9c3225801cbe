/-
The machine that runs programs: what it is doing, what is to be done with the
outcome, and the world. Each step does one small thing, so a run is a plain
sequence of machines, and the depth of a program costs no more than its length.
-/
import MonkeyLang.World

namespace MonkeyLang

/-- What a machine is doing. -/
inductive Control where
  /-- Evaluate an expression in a frame. -/
  | expr (e : Expr) (f : FrameId)
  | stmt (s : Stmt) (f : FrameId)
  | block (b : Block) (f : FrameId)
  | apply (callee : Value) (arguments : List Value)
  /-- Something is done. A definition and an empty block leave no value. -/
  | done (result : Option Value)
  /-- A signal is on its way to what catches it. -/
  | raised (s : Signal)

/-- What is to be done with the outcome of what is going on. -/
inductive Pending where
  /-- The statements of a block that come next. -/
  | more (b : Block) (f : FrameId)
  | define (name : String) (f : FrameId)
  | ret
  | item (before : List Value) (after : List Expr) (f : FrameId)
  | entryKey (before : Entries Value) (value : Expr) (after : List (Expr × Expr)) (f : FrameId)
  | entryValue (before : Entries Value) (key : Key) (after : List (Expr × Expr)) (f : FrameId)
  | unary (op : UnaryOp)
  | binaryLeft (op : BinaryOp) (right : Expr) (f : FrameId)
  | binaryRight (left : Value) (op : BinaryOp)
  | assign (name : String) (f : FrameId)
  | choose (consequence : Block) (alternative : Option Block) (f : FrameId)
  /-- The chosen block of an `if` is going on. -/
  | chosen
  | iterate (name : String) (body : Block) (f : FrameId)
  /-- A pass of a `for` is going on. `result` is the value of the passes before. -/
  | forPass (name : String) (after : List Value) (body : Block) (f : FrameId) (result : Value)
  | test (condition : Expr) (body : Block) (f : FrameId) (result : Value)
  /-- A pass of a `while` is going on. `result` is the value of the passes before. -/
  | whilePass (condition : Expr) (body : Block) (f : FrameId) (result : Value)
  | callee (arguments : List Expr) (f : FrameId)
  | argument (callee : Value) (before : List Value) (after : List Expr) (f : FrameId)
  /-- The body of a function is going on. -/
  | call
  | collection (key : Expr) (f : FrameId)
  | key (collection : Value)

structure Machine where
  control : Control
  stack : List Pending
  world : World

end MonkeyLang
