/-
All that a running program can see and change: the frames of variables, the
text it has printed, and the counters behind functions, calls and random
numbers.
-/
import MonkeyLang.Store
import MonkeyLang.Value.Printer

namespace MonkeyLang

structure World where
  store : Store
  /-- The functions made so far. -/
  functions : Nat
  /-- The calls of functions that are going on. -/
  depth : Nat
  /-- The text printed so far. -/
  output : String
  /-- The random numbers to come, of which `drawn` are used up. -/
  draws : Nat → Nat
  drawn : Nat

namespace World

/-- Nothing has happened yet. -/
def fresh (draws : Nat → Nat) : World := ⟨.empty, 0, 0, "", draws, 0⟩

def print (w : World) (text : String) : World := { w with output := w.output ++ text }

/-- The next random number. -/
def draw (w : World) : Nat × World := (w.draws w.drawn, { w with drawn := w.drawn + 1 })

def define (w : World) (f : FrameId) (name : String) (v : Value) : World :=
  { w with store := w.store.define f name v }

def assign (w : World) (f : FrameId) (name : String) (v : Value) : Bool × World :=
  let (found, s) := w.store.assign f name v
  (found, { w with store := s })

/-- One more frame, and its number. -/
def newFrame (w : World) (parent : Option FrameId) (slots : Slots) : FrameId × World :=
  let (f, s) := w.store.newFrame parent slots
  (f, { w with store := s })

/-- A new function made in frame `f`. -/
def newFunction (w : World) (parameters : List String) (body : Block) (f : FrameId) :
    Value × World :=
  (.function ⟨w.functions, parameters, body, f⟩, { w with functions := w.functions + 1 })

end World

end MonkeyLang
