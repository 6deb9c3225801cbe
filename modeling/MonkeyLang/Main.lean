/-
The program: it reads the file and the lines that the command line needs, and
prints what comes of them.
-/
import MonkeyLang.CommandLine

namespace MonkeyLang.Main

/-- The steps a program may take, more than it could in a lifetime. -/
def patience : Nat := 1000000000000000000

/-- An error of the system by its number, which may be given as a negative one. -/
def systemError (code : UInt32) : HostError :=
  .system (if code < 0x80000000 then code.toNat else (0 - code).toNat)

/-- Where the system gives no number, its words have to do. -/
def hostError : IO.Error → HostError
  | .noFileOrDirectory _ code _ | .permissionDenied _ code _ | .inappropriateType _ code _
  | .invalidArgument _ code _ | .otherError code _ => systemError code
  | e => .other (toString e)

def readFile (path : String) : IO (Except HostError (List UInt8)) := do
  try
    let content ← IO.FS.readBinFile path
    pure (.ok content.toList)
  catch e => pure (.error (hostError e))

/-- A source of random numbers. -/
def draws : IO (Nat → Nat) := do
  let seed ← IO.rand 0 0x3FFFFFFFFFFFFFFF
  pure fun k => (mixHash (hash seed) (hash k)).toNat

/-- The bytes up to the next line feed, that included, or to the end of the input. -/
partial def readLine (input : IO.FS.Stream) (line : Array UInt8) : IO (List UInt8) := do
  let bytes ← input.read 1
  match bytes.toList with
  | [] => pure line.toList
  | b :: _ => if b = 10 then pure (line.push b).toList else readLine input (line.push b)

def put (text : String) : IO Unit := do
  let out ← IO.getStdout
  out.putStr text
  out.flush

def finish (r : CommandLine.Result) : IO UInt32 := do
  put r.stdout
  (← IO.getStderr).putStr r.stderr
  pure (UInt32.ofNat r.exit)

/-- Prints what the session has to say. -/
def putOutput (s : Session) : IO Session := do
  let (text, s) := s.takeOutput
  put text
  pure s

partial def converse (input : IO.FS.Stream) (s : Session) : IO UInt32 := do
  put Session.prompt
  match ← readLine input #[] with
  | [] => finish ⟨0, "\n", ""⟩
  | bytes =>
    match Session.decode? bytes with
    | none => finish (.ofFailure "" (some (.console .notUtf8)))
    | some source =>
      match s.line patience source with
      | none => pure 1
      | some s => converse input (← putOutput s)

end MonkeyLang.Main

open MonkeyLang in
def main (args : List String) : IO UInt32 := do
  let request := CommandLine.request args
  let content ← match request with
    | .run ⟨some path, _, _, _⟩ => Main.readFile path
    | _ => pure (.ok [])
  let s := Session.fresh (← Main.draws)
  match CommandLine.begin Main.patience (fun _ => content) s request with
  | none => pure 1
  | some (.ended r) => Main.finish r
  | some (.interactive s) => Main.converse (← IO.getStdin) (← Main.putOutput s)
