/-
What can be wrong with a source text, and the words for it.
-/
import MonkeyLang.Program.Printer
import MonkeyLang.Token

namespace MonkeyLang

/-- Why a statement could not be read. -/
inductive ParseError where
  /-- Another kind of token had to come. -/
  | expected (want got : Kind)
  /-- No expression begins with this token. -/
  | noOperand (found : Kind)
  /-- The digits of an integer beyond 64 bits. -/
  | tooLarge (digits : String)
  /-- Only a name can be assigned to. -/
  | badTarget (target : Expr)

def ParseError.message : ParseError → String
  | expected want got =>
    .join ["expected next token to be ", want.name, ", got ", got.name, " instead"]
  | noOperand found => .join ["no prefix parse function for ", found.name]
  | tooLarge digits => .join ["could not parse ", digits, " as integer"]
  | badTarget target => .join ["invalid assignment target: ", target.print]

end MonkeyLang
