/-
The command line: what its arguments ask for, and what is then printed.

An argument that begins with two hyphens is a long option, one with a single
hyphen and more behind it is a group of short options, and anything else is the
file to run; so is whatever stands behind an argument of two hyphens alone.
-/
import MonkeyLang.Program.Listing
import MonkeyLang.Session.Prompt
import MonkeyLang.Session.Script
import MonkeyLang.Token.Listing

namespace MonkeyLang.CommandLine

/-- The name and the version of the program. -/
def banner : String := "monkey 0.1.0\n"

def helpText : String := .join
  [banner,
   "A tree-walking interpreter for the Monkey programming language\n",
   "\n",
   "USAGE:\n",
   "    monkey [OPTIONS] [FILE]\n",
   "\n",
   "ARGS:\n",
   "    <FILE>    Script to run\n",
   "\n",
   "OPTIONS:\n",
   "        --ast            Print the parsed program of FILE instead of running it\n",
   "    -h, --help           Print help information\n",
   "    -i, --interactive    Continue in an interactive session after running FILE, ",
   "keeping its bindings\n",
   "        --tokens         Print the tokens of FILE instead of running it\n",
   "    -V, --version        Print version information\n"]

structure Options where
  file : Option String := none
  interactive : Bool := false
  tokens : Bool := false
  ast : Bool := false
  deriving DecidableEq, Repr, Inhabited

/-- What the arguments ask for. -/
inductive Request where
  | run (options : Options)
  | help
  | version
  | misused
  deriving DecidableEq, Repr, Inhabited

/-- Both listings at once cannot be had, nor one without a file. -/
def Options.request (o : Options) : Request :=
  if (o.tokens || o.ast) && o.file.isNone || o.tokens && o.ast then .misused else .run o

/-- There can be only one file, and its name is not empty. -/
def Options.withFile? (o : Options) (path : String) : Option Options :=
  if o.file.isNone && path ≠ "" then some { o with file := some path } else none

/-- A group of short options, up to the one that settles everything. -/
def shortOptions (o : Options) : List Char → Except Request Options
  | [] => .ok o
  | 'i' :: cs => shortOptions { o with interactive := true } cs
  | 'h' :: _ => .error .help
  | 'V' :: _ => .error .version
  | _ :: _ => .error .misused

def longOption (o : Options) : String → Except Request Options
  | "--interactive" => .ok { o with interactive := true }
  | "--tokens" => .ok { o with tokens := true }
  | "--ast" => .ok { o with ast := true }
  | "--help" => .error .help
  | "--version" => .error .version
  | _ => .error .misused

/-- What the arguments ask for, given what the earlier ones said. `onlyFiles` holds behind two
hyphens. -/
def requestFrom (o : Options) (onlyFiles : Bool) : List String → Request
  | [] => o.request
  | arg :: rest =>
    match onlyFiles, arg.toList with
    | false, ['-', '-'] => requestFrom o true rest
    | false, '-' :: '-' :: _ =>
      match longOption o arg with
      | .ok o => requestFrom o false rest
      | .error r => r
    | false, '-' :: c :: cs =>
      match shortOptions o (c :: cs) with
      | .ok o => requestFrom o false rest
      | .error r => r
    | _, _ =>
      match o.withFile? arg with
      | some o => requestFrom o onlyFiles rest
      | none => .misused

def request (args : List String) : Request := requestFrom {} false args

/-- What a run of the command leaves behind. -/
structure Result where
  exit : Nat
  stdout : String
  stderr : String
  deriving DecidableEq, Repr, Inhabited

/-- Success, or the failure on standard error. -/
def Result.ofFailure (stdout : String) (failure : Option Failure) : Result :=
  match failure with
  | none => ⟨0, stdout, ""⟩
  | some f => ⟨1, stdout, f.message ++ "\n"⟩

/-- How far the work gets without the console: to its end, or to an interactive session. -/
inductive Stage where
  | ended (r : Result)
  | interactive (s : Session)

/-- The work on a file with this content, or with none because it could not be read. -/
def onFile (n : Nat) (o : Options) (path : String) (content : Except HostError (List UInt8))
    (s : Session) : Option Stage :=
  match content with
  | .error e => some (.ended (.ofFailure "" (some (.unreadable path e))))
  | .ok bytes =>
    match Session.decode? bytes with
    | none => some (.ended (.ofFailure "" (some (.unreadable path .notUtf8))))
    | some source =>
      if o.tokens then some (.ended ⟨0, tokenListing source, ""⟩)
      else if o.ast then some (.ended ⟨0, programListing source, ""⟩)
      else
        (s.script n o.interactive source).map fun (ending, s) =>
          match ending with
          | .finished => .ended ⟨0, s.world.output, ""⟩
          | .interactive => .interactive s

/-- The work up to an interactive session. `read` gives the content of a file. -/
def begin (n : Nat) (read : String → Except HostError (List UInt8)) (s : Session) :
    Request → Option Stage
  | .help => some (.ended ⟨0, helpText, ""⟩)
  | .version => some (.ended ⟨0, banner, ""⟩)
  | .misused => some (.ended ⟨2, "", ""⟩)
  | .run o =>
    match o.file with
    | none => some (.interactive s)
    | some path => onFile n o path (read path) s

/-- The whole work over the files that `read` gives and over the given standard input. Each program
runs for at most `n` steps. -/
def execute (n : Nat) (read : String → Except HostError (List UInt8)) (stdin : List UInt8)
    (s : Session) (args : List String) : Option Result := do
  match ← begin n read s (request args) with
  | .ended r => some r
  | .interactive s =>
    let (r, s) ← s.start n stdin
    match r with
    | .ok () => some (.ofFailure s.world.output none)
    | .error e => some (.ofFailure s.world.output (some (.console e)))

end MonkeyLang.CommandLine
