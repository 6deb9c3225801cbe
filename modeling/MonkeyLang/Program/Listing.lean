/-
The listing of a source's program.
-/
import MonkeyLang.Failure
import MonkeyLang.Program.Parser

namespace MonkeyLang

/-- The canonical text of a source, or the report on its errors. -/
def programListing (source : String) : String :=
  let r := parse source
  (if r.errors.isEmpty then r.program.print else report r.errors) ++ "\n"

end MonkeyLang
