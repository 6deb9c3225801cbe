/-
The tokens of a program: their kinds, the words that are keywords, and the
place of a token in the source.
-/

namespace MonkeyLang

/-- What a token is. -/
inductive Kind where
  | illegal | eof
  | ident | int | string
  | assign | plus | minus | bang | asterisk | slash | lt | gt | eq | notEq
  | comma | semicolon | colon
  | lparen | rparen | lbrace | rbrace | lbracket | rbracket
  | kwFn | kwLet | kwTrue | kwFalse | kwIf | kwElse | kwReturn
  | kwFor | kwIn | kwWhile | kwBreak | kwContinue
  deriving DecidableEq, Repr, Inhabited

namespace Kind

/-- The name of a kind in messages and listings. -/
def name : Kind → String
  | illegal => "ILLEGAL"
  | eof => "EOF"
  | ident => "IDENT"
  | int => "INT"
  | string => "STRING"
  | assign => "="
  | plus => "+"
  | minus => "-"
  | bang => "!"
  | asterisk => "*"
  | slash => "/"
  | lt => "<"
  | gt => ">"
  | eq => "=="
  | notEq => "!="
  | comma => ","
  | semicolon => ";"
  | colon => ":"
  | lparen => "("
  | rparen => ")"
  | lbrace => "\x7b"
  | rbrace => "\x7d"
  | lbracket => "["
  | rbracket => "]"
  | kwFn => "FUNCTION"
  | kwLet => "LET"
  | kwTrue => "TRUE"
  | kwFalse => "FALSE"
  | kwIf => "IF"
  | kwElse => "ELSE"
  | kwReturn => "RETURN"
  | kwFor => "FOR"
  | kwIn => "IN"
  | kwWhile => "WHILE"
  | kwBreak => "BREAK"
  | kwContinue => "CONTINUE"

/-- The twelve keywords with their kinds. -/
def keywords : List (String × Kind) :=
  [("fn", kwFn), ("let", kwLet), ("true", kwTrue), ("false", kwFalse), ("if", kwIf),
   ("else", kwElse), ("return", kwReturn), ("for", kwFor), ("in", kwIn), ("while", kwWhile),
   ("break", kwBreak), ("continue", kwContinue)]

/-- The kind of a word: a keyword if it spells one, else a name. -/
def ofWord (word : String) : Kind := (keywords.lookup word).getD .ident

/-- The operators and delimiters of one character. -/
def ofSymbol? : Char → Option Kind
  | '=' => some assign
  | '+' => some plus
  | '-' => some minus
  | '!' => some bang
  | '*' => some asterisk
  | '/' => some slash
  | '<' => some lt
  | '>' => some gt
  | ',' => some comma
  | ';' => some semicolon
  | ':' => some colon
  | '(' => some lparen
  | ')' => some rparen
  | '\x7b' => some lbrace
  | '\x7d' => some rbrace
  | '[' => some lbracket
  | ']' => some rbracket
  | _ => none

/-- The operators that an equals sign after the character makes. -/
def ofSymbolEq? : Char → Option Kind
  | '=' => some eq
  | '!' => some notEq
  | _ => none

end Kind

/-- A token. The text is what the source says, for a string without its quotes. -/
structure Token where
  kind : Kind
  text : String
  deriving DecidableEq, Repr, Inhabited

/-- The bytes of the source from `start` up to but not including `stop`. -/
structure Span where
  start : Nat
  stop : Nat
  deriving DecidableEq, Repr, Inhabited

/-- A token and where it stands. -/
structure Lexeme where
  token : Token
  span : Span
  deriving DecidableEq, Repr, Inhabited

end MonkeyLang
