/-
The canonical text of a program. Every operator, assignment and index
expression stands in parentheses, so that the text reads back as the same tree.
-/
import MonkeyLang.Program

namespace MonkeyLang

mutual

def Expr.print : Expr → String
  | .ident name => name
  | .integer value => toString value.toInt
  | .boolean value => if value then "true" else "false"
  | .string value => "\"" ++ value ++ "\""
  | .array items => "[" ++ Expr.printList items ++ "]"
  | .hash entries => "\x7b" ++ Expr.printEntries entries ++ "\x7d"
  | .unary op operand => "(" ++ op.symbol ++ operand.print ++ ")"
  | .binary left op right => "(" ++ left.print ++ op.symbol ++ right.print ++ ")"
  | .assign name value => "(" ++ name ++ "=" ++ value.print ++ ")"
  | .ifElse condition consequence alternative =>
    "if(" ++ condition.print ++ ")" ++ "\x7b" ++ Stmt.printList consequence ++ "\x7d"
      ++ Stmt.printElse alternative
  | .forIn name iterable body =>
    "for(" ++ name ++ " in " ++ iterable.print ++ ")" ++ "\x7b" ++ Stmt.printList body ++ "\x7d"
  | .whileDo condition body =>
    "while(" ++ condition.print ++ ")" ++ "\x7b" ++ Stmt.printList body ++ "\x7d"
  | .function parameters body =>
    "fn(" ++ ", ".intercalate parameters ++ ")" ++ "\x7b" ++ Stmt.printList body ++ "\x7d"
  | .call callee arguments => callee.print ++ "(" ++ Expr.printList arguments ++ ")"
  | .index collection key => "(" ++ collection.print ++ "[" ++ key.print ++ "])"

/-- The expressions, separated by commas. -/
def Expr.printList : List Expr → String
  | [] => ""
  | e :: es => e.print ++ Expr.printListTail es

def Expr.printListTail : List Expr → String
  | [] => ""
  | e :: es => ", " ++ e.print ++ Expr.printListTail es

/-- The entries of a hash literal in the order of the source, separated by commas. -/
def Expr.printEntries : List (Expr × Expr) → String
  | [] => ""
  | (key, value) :: entries => key.print ++ ": " ++ value.print ++ Expr.printEntriesTail entries

def Expr.printEntriesTail : List (Expr × Expr) → String
  | [] => ""
  | (key, value) :: entries =>
    ", " ++ key.print ++ ": " ++ value.print ++ Expr.printEntriesTail entries

def Stmt.print : Stmt → String
  | .define name value => "let " ++ name ++ " = " ++ value.print ++ ";"
  | .ret value => "return " ++ value.print ++ ";"
  | .expr value => value.print
  | .brk => "break;"
  | .cont => "continue;"

/-- The statements one after the other. -/
def Stmt.printList : List Stmt → String
  | [] => ""
  | s :: ss => s.print ++ Stmt.printList ss

def Stmt.printElse : Option (List Stmt) → String
  | none => ""
  | some block => "else" ++ "\x7b" ++ Stmt.printList block ++ "\x7d"

end

/-- The text of a block. -/
def Block.print (b : Block) : String := "\x7b" ++ Stmt.printList b ++ "\x7d"

/-- The text of a program. -/
def Program.print (p : Program) : String := Stmt.printList p

/-- The text of a function with these parameters and this body. -/
def printFunction (parameters : List String) (body : Block) : String :=
  "fn(" ++ ", ".intercalate parameters ++ ")" ++ body.print

end MonkeyLang
