/-
A session runs one source after another over the same variables.
-/
import MonkeyLang.Failure
import MonkeyLang.Machine.Run
import MonkeyLang.Program.Parser

namespace MonkeyLang

/-- The calls of functions that may be going on at once. -/
def callLimit : Nat := 20000

/-- A world and the frame of the global variables in it. -/
structure Session where
  world : World
  globals : FrameId

/-- What running a source gave. -/
inductive Answer where
  | value (v : Value)
  | rejected (errors : List ParseError)

namespace Session

/-- A session without variables. -/
def fresh (draws : Nat → Nat) : Session :=
  let (f, w) := (World.fresh draws).newFrame none []
  ⟨w, f⟩

def print (s : Session) (text : String) : Session := { s with world := s.world.print text }

/-- Takes the printed text off. -/
def takeOutput (s : Session) : String × Session :=
  (s.world.output, { s with world := { s.world with output := "" } })

/-- Binds a global variable. -/
def define (s : Session) (name : String) (v : Value) : Session :=
  { s with world := s.world.define s.globals name v }

/-- The value of a global variable. -/
def get? (s : Session) (name : String) : Option Value := s.world.store.get? s.globals name

/-- Runs a program for at most `n` steps. -/
def runProgram (n : Nat) (p : Program) (s : Session) : Option (Value × Session) :=
  (p.run (some callLimit) n s.globals s.world).map fun (v, w) => (v, { s with world := w })

/-- Runs a source, unless there are errors in it. -/
def run (n : Nat) (source : String) (s : Session) : Option (Answer × Session) :=
  let r := parse source
  if r.errors.isEmpty then
    (s.runProgram n r.program).map fun (v, s) => (.value v, s)
  else some (.rejected r.errors, s)

end Session

end MonkeyLang
