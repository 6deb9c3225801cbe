/-
Runs of the machine, and of whole programs. A run is bounded by a number of
steps; an answer that some number of steps gives, every larger number gives.
-/
import MonkeyLang.Machine.Step

namespace MonkeyLang

namespace Machine

/-- How an evaluation ended: with a value, with none, or early. -/
abbrev Outcome := Except Signal (Option Value)

/-- The outcome, once nothing is left to do. -/
def outcome? (m : Machine) : Option Outcome :=
  match m.control, m.stack with
  | .done result, [] => some (.ok result)
  | .raised s, [] => some (.error s)
  | _, _ => none

/-- Runs for at most `n` steps; none if that was not enough. -/
def run (limit : Option Nat) : Nat → Machine → Option (Outcome × World)
  | 0, m => m.outcome?.map (·, m.world)
  | n + 1, m =>
    match m.outcome? with
    | some o => some (o, m.world)
    | none => run limit n (m.step limit)

theorem run_of_outcome {limit : Option Nat} {m : Machine} {o : Outcome} (h : m.outcome? = some o)
    (n : Nat) : m.run limit n = some (o, m.world) := by
  cases n <;> simp [run, h]

theorem run_step {limit : Option Nat} {m : Machine} (h : m.outcome? = none) (n : Nat) :
    m.run limit (n + 1) = (m.step limit).run limit n := by
  simp [run, h]

/-- More steps change no answer. -/
theorem run_mono {limit : Option Nat} {m : Machine} {n k : Nat} {r : Outcome × World}
    (h : m.run limit n = some r) (hle : n ≤ k) : m.run limit k = some r := by
  induction n generalizing m k with
  | zero =>
    obtain ⟨o, ho, rfl⟩ := Option.map_eq_some_iff.1 h
    exact run_of_outcome ho k
  | succ n ih =>
    cases ho : m.outcome? with
    | some o =>
      rw [run_of_outcome ho] at h
      rw [run_of_outcome ho, h]
    | none =>
      obtain ⟨k, rfl⟩ : ∃ j, k = j + 1 := ⟨k - 1, by omega⟩
      rw [run_step ho] at h
      rw [run_step ho, ih h (by omega)]

/-- About to run a program in frame `f`. -/
def load (p : Program) (f : FrameId) (w : World) : Machine := ⟨.block p f, [], w⟩

end Machine

/-- The value of a program that ended so. Its `return` may stand outside of functions, but not its
`break` or `continue` outside of loops. -/
def Machine.Outcome.value : Machine.Outcome → Value
  | .ok result => result.getD .null
  | .error (.returned v) => v
  | .error (.fault e) => .signal (.fault e)
  | .error .brk | .error .cont => .signal (.fault .outsideLoop)

/-- Runs a program in frame `f` for at most `n` steps. -/
def Program.run (limit : Option Nat) (n : Nat) (p : Program) (f : FrameId) (w : World) :
    Option (Value × World) :=
  ((Machine.load p f w).run limit n).map fun (o, w) => (o.value, w)

end MonkeyLang
