/-
What ends the work of the command line, and the words for it.
-/
import MonkeyLang.Program.ParseError

namespace MonkeyLang

/-- Why the host could not read or write. -/
inductive HostError where
  | notUtf8
  /-- An error of the operating system, by its number. -/
  | system (number : Nat)
  | other (text : String)
  deriving DecidableEq, Repr, Inhabited

/-- The operating system's words for its errors. -/
def systemErrorText : Nat → String
  | 1 => "Operation not permitted"
  | 2 => "No such file or directory"
  | 5 => "Input/output error"
  | 13 => "Permission denied"
  | 20 => "Not a directory"
  | 21 => "Is a directory"
  | 32 => "Broken pipe"
  | 36 => "File name too long"
  | 40 => "Too many levels of symbolic links"
  | n => .join ["Unknown error ", toString n]

def HostError.message : HostError → String
  | notUtf8 => "stream did not contain valid UTF-8"
  | system n => .join [systemErrorText n, " (os error ", toString n, ")"]
  | other text => text

inductive Failure where
  | unreadable (path : String) (cause : HostError)
  /-- The messages of the errors in a source. -/
  | rejected (messages : List String)
  | console (cause : HostError)
  deriving DecidableEq, Repr, Inhabited

def Failure.message : Failure → String
  | unreadable path cause => .join ["failed to read '", path, "': ", cause.message]
  | rejected messages => .join ("Woops! Parser Errors!" :: messages.map ("\n\t" ++ ·))
  | console cause => .join ["console i/o failed: ", cause.message]

/-- The report on the errors in a source. -/
def report (errors : List ParseError) : String :=
  (Failure.rejected (errors.map (·.message))).message

end MonkeyLang
