/-
Running a whole file.
-/
import MonkeyLang.Session

namespace MonkeyLang.Session

/-- What comes after a script. -/
inductive Ending where
  | finished
  | interactive
  deriving DecidableEq, Repr, Inhabited

/-- Runs a script. Its value is printed if nothing comes after it and the value is not null, an
error of the running program in any case. A source with errors is reported, and ends it all. -/
def script (n : Nat) (interactive : Bool) (source : String) (s : Session) :
    Option (Ending × Session) :=
  let ending := if interactive then Ending.interactive else .finished
  (s.run n source).map fun (answer, s) =>
    match answer with
    | .value .null => (ending, s)
    | .value (.signal (.fault e)) => (ending, s.print ((Signal.fault e).render ++ "\n"))
    | .value v => (ending, if interactive then s else s.print (v.display ++ "\n"))
    | .rejected errors => (.finished, s.print (report errors ++ "\n"))

end MonkeyLang.Session
