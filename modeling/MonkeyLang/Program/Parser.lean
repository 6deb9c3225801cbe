/-
Reading a program off its tokens, by recursive descent for statements and by
precedence climbing for expressions.

Errors are collected: a statement that cannot be read is left out, and reading
goes on in the innermost list of statements, at the token after the one that
was read last. The recursion is bounded by a number that shrinks with each
call; `parse` starts it high enough for every list of tokens.
-/
import MonkeyLang.Parser
import MonkeyLang.Token.Cursor

namespace MonkeyLang

/-- How tightly the operators bind that begin with a token of this kind; 0 if none does. -/
def Kind.binding : Kind → Nat
  | .assign => 1
  | .eq | .notEq => 2
  | .lt | .gt => 3
  | .plus | .minus => 4
  | .asterisk | .slash => 5
  | .lparen => 7
  | .lbracket => 8
  | _ => 0

/-- How tightly the operators in front of an operand bind. -/
def unaryBinding : Nat := 6

def BinaryOp.ofKind? : Kind → Option BinaryOp
  | .plus => some .add
  | .minus => some .subtract
  | .asterisk => some .multiply
  | .slash => some .divide
  | .eq => some .equal
  | .notEq => some .notEqual
  | .lt => some .less
  | .gt => some .greater
  | _ => none

/-- The number that decimal digits stand for. -/
def ofDigits (digits : List Char) : Nat :=
  digits.foldl (fun n c => 10 * n + (c.toNat - '0'.toNat)) 0

/-- The integer that the digits of a token stand for, if it has 64 bits. -/
def integerOf? (digits : String) : Option Int64 :=
  let n := ofDigits digits.toList
  if n ≤ 0x7FFFFFFFFFFFFFFF then some (Int64.ofNat n) else none

namespace Parser

/-- At most `n` statements up to the closing brace. -/
def block (stmt : Parser Stmt) : Nat → Parser Block
  | 0 => unexpected .rbrace
  | n + 1 => do
    match ← peek with
    | .eof => unexpected .rbrace
    | .rbrace =>
      let _ ← next
      pure []
    | _ =>
      let s ← recover stmt
      let b ← block stmt n
      pure (s.toList ++ b)

/-- At most `n` statements up to the end of the source. -/
def program (stmt : Parser Stmt) : Nat → Parser Program
  | 0 => pure []
  | n + 1 => do
    match ← peek with
    | .eof => pure []
    | _ =>
      let s ← recover stmt
      let p ← program stmt n
      pure (s.toList ++ p)

/-- What follows an operand, as long as it binds tighter than `level`: at most `n` operators.
`suffix` reads on behind the operator's token. -/
def climb (suffix : Expr → Kind → Parser Expr) (level : Nat) : Nat → Expr → Parser Expr
  | 0, left => pure left
  | n + 1, left => do
    let kind ← peek
    if level < kind.binding then
      let _ ← next
      let e ← suffix left kind
      climb suffix level n e
    else pure left

mutual

/-- An expression of which the operators outside parentheses bind tighter than `level`. -/
def expr : Nat → Nat → Parser Expr
  | 0, _ => do
    let t ← next
    fail (.noOperand t.kind)
  | n + 1, level => do
    let left ← operand n
    climb (suffix n) level n left

/-- An expression up to the first operator behind it. -/
def operand : Nat → Parser Expr
  | 0 => do
    let t ← next
    fail (.noOperand t.kind)
  | n + 1 => do
    let t ← next
    match t.kind with
    | .ident => pure (.ident t.text)
    | .int =>
      match integerOf? t.text with
      | some value => pure (.integer value)
      | none => fail (.tooLarge t.text)
    | .string => pure (.string t.text)
    | .kwTrue => pure (.boolean true)
    | .kwFalse => pure (.boolean false)
    | .bang =>
      let right ← expr n unaryBinding
      pure (.unary .not right)
    | .minus =>
      let right ← expr n unaryBinding
      pure (.unary .negate right)
    | .lparen =>
      let inner ← expr n 0
      symbol .rparen
      pure inner
    | .lbracket =>
      let items ← commaList .rbracket .rbracket (expr n 0) n
      pure (.array items)
    | .lbrace =>
      let entries ← commaList .rbrace .comma (entry n) n
      pure (.hash entries)
    | .kwIf =>
      symbol .lparen
      let condition ← expr n 0
      symbol .rparen
      symbol .lbrace
      let consequence ← block (stmt n) n
      if ← accept .kwElse then
        symbol .lbrace
        let alternative ← block (stmt n) n
        pure (.ifElse condition consequence (some alternative))
      else pure (.ifElse condition consequence none)
    | .kwFor =>
      symbol .lparen
      let x ← name
      symbol .kwIn
      let iterable ← expr n 0
      symbol .rparen
      symbol .lbrace
      let body ← block (stmt n) n
      pure (.forIn x iterable body)
    | .kwWhile =>
      symbol .lparen
      let condition ← expr n 0
      symbol .rparen
      symbol .lbrace
      let body ← block (stmt n) n
      pure (.whileDo condition body)
    | .kwFn =>
      symbol .lparen
      let parameters ← commaList .rparen .rparen name n
      symbol .lbrace
      let body ← block (stmt n) n
      pure (.function parameters body)
    | kind => fail (.noOperand kind)

/-- The key and the value of an entry in a hash literal. -/
def entry : Nat → Parser (Expr × Expr)
  | 0 => do
    let t ← next
    fail (.noOperand t.kind)
  | n + 1 => do
    let key ← expr n 0
    symbol .colon
    let value ← expr n 0
    pure (key, value)

/-- The operator of this kind with `left` before it. -/
def suffix : Nat → Expr → Kind → Parser Expr
  | 0, _, _ => do
    let t ← next
    fail (.noOperand t.kind)
  | n + 1, left, kind =>
    match kind with
    | .lparen => do
      let arguments ← commaList .rparen .rparen (expr n 0) n
      pure (.call left arguments)
    | .lbracket => do
      let key ← expr n 0
      symbol .rbracket
      pure (.index left key)
    | .assign =>
      match left with
      | .ident name => do
        let value ← expr n 0
        pure (.assign name value)
      | _ => fail (.badTarget left)
    | _ =>
      match BinaryOp.ofKind? kind with
      | some op => do
        let right ← expr n kind.binding
        pure (.binary left op right)
      | none => pure left

def stmt : Nat → Parser Stmt
  | 0 => do
    let t ← next
    fail (.noOperand t.kind)
  | n + 1 => do
    match ← peek with
    | .kwLet =>
      let _ ← next
      let x ← name
      symbol .assign
      let value ← expr n 0
      semicolon
      pure (.define x value)
    | .kwReturn =>
      let _ ← next
      let value ← expr n 0
      semicolon
      pure (.ret value)
    | .kwBreak =>
      let _ ← next
      semicolon
      pure .brk
    | .kwContinue =>
      let _ ← next
      semicolon
      pure .cont
    | _ =>
      let value ← expr n 0
      semicolon
      pure (.expr value)

end

end Parser

/-- A program as far as it could be read, and what was wrong with the rest. -/
structure Reading where
  program : Program
  errors : List ParseError

/-- Reads the tokens of a program. -/
def parseTokens (ts : List Token) : Reading :=
  let bound := 3 * ts.length + 3
  let r := Parser.program (Parser.stmt bound) bound ts
  ⟨r.value.getD [], r.errors⟩

/-- Reads a source text. -/
def parse (source : String) : Reading := parseTokens (tokens source)

end MonkeyLang
