/-
Programs as trees: expressions, statements, and blocks as lists of statements.
-/

namespace MonkeyLang

inductive UnaryOp where
  | not | negate
  deriving DecidableEq, Repr, Inhabited

inductive BinaryOp where
  | add | subtract | multiply | divide | equal | notEqual | less | greater
  deriving DecidableEq, Repr, Inhabited

def UnaryOp.symbol : UnaryOp → String
  | not => "!"
  | negate => "-"

def BinaryOp.symbol : BinaryOp → String
  | add => "+"
  | subtract => "-"
  | multiply => "*"
  | divide => "/"
  | equal => "=="
  | notEqual => "!="
  | less => "<"
  | greater => ">"

mutual

/-- Expressions, which yield values. Parentheses leave no trace. -/
inductive Expr where
  | ident (name : String)
  | integer (value : Int64)
  | boolean (value : Bool)
  | string (value : String)
  | array (items : List Expr)
  | hash (entries : List (Expr × Expr))
  | unary (op : UnaryOp) (operand : Expr)
  | binary (left : Expr) (op : BinaryOp) (right : Expr)
  | assign (name : String) (value : Expr)
  | ifElse (condition : Expr) (consequence : List Stmt) (alternative : Option (List Stmt))
  | forIn (name : String) (iterable : Expr) (body : List Stmt)
  | whileDo (condition : Expr) (body : List Stmt)
  | function (parameters : List String) (body : List Stmt)
  | call (callee : Expr) (arguments : List Expr)
  | index (collection : Expr) (key : Expr)

/-- Statements, of which a `define` yields nothing. -/
inductive Stmt where
  | define (name : String) (value : Expr)
  | ret (value : Expr)
  | expr (value : Expr)
  | brk
  | cont

end

/-- Statements between braces. -/
abbrev Block := List Stmt

/-- A whole source text as statements. -/
abbrev Program := List Stmt

end MonkeyLang
