/-
The interactive session: a prompt, a line, its result, and so on until the
input ends.
-/
import MonkeyLang.Session
import MonkeyLang.Text.Blank

namespace MonkeyLang.Session

def prompt : String := ">> "

/-- The lines of an input, each with the line feed that ends it. -/
def splitLines : List UInt8 → List (List UInt8)
  | [] => []
  | b :: bs =>
    if b = 10 then [b] :: splitLines bs
    else
      match splitLines bs with
      | [] => [[b]]
      | line :: lines => (b :: line) :: lines

/-- The text of these bytes, if they are valid UTF-8. -/
def decode? (bytes : List UInt8) : Option String := String.fromUTF8? ⟨bytes.toArray⟩

/-- Runs a line and prints its value, unless that is null. -/
def line (n : Nat) (source : String) (s : Session) : Option Session :=
  if Text.isBlankLine source then some s
  else
    (s.run n source).map fun (answer, s) =>
      match answer with
      | .value .null => s
      | .value v => s.print (v.display ++ "\n")
      | .rejected errors => s.print (report errors ++ "\n")

/-- Prompts for the lines one by one and runs them, each for at most `n` steps. The first line that
is not valid UTF-8 ends the session with an error; at the end of the input it ends with a line feed
after the last prompt. -/
def converse (n : Nat) : List (List UInt8) → Session → Option (Except HostError Unit × Session)
  | [], s => some (.ok (), s.print (prompt ++ "\n"))
  | l :: ls, s =>
    match decode? l with
    | none => some (.error .notUtf8, s.print prompt)
    | some source => do
      let s ← (s.print prompt).line n source
      converse n ls s

/-- The session over an input. -/
def start (n : Nat) (input : List UInt8) (s : Session) : Option (Except HostError Unit × Session) :=
  converse n (splitLines input) s

end MonkeyLang.Session
