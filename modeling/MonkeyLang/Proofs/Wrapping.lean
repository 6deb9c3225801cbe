/-
A program and the same program as a block. An `if` gives the value of its block,
null where there is none, and lets every signal pass; and that is just what
becomes of the outcome of a whole program. So a program may stand in an `if`
whose condition is true, in any number of them, and does the same.
-/
import Mathlib.Logic.Function.Iterate
import MonkeyLang.Proofs.Sequence

namespace MonkeyLang

/-- The program `if (true) { … }` around a block. -/
def Block.wrapped (b : Block) : Program := [.expr (.ifElse (.boolean true) b none)]

namespace Machine

/-- The outcome of an `if` whose chosen block has this one. -/
def Outcome.chosen : Outcome → Outcome
  | .ok r => .ok (some (r.getD .null))
  | .error s => .error s

/-- What an `if` makes of the outcome of its block, the end of a program would make of it too. -/
theorem Outcome.value_chosen (o : Outcome) : o.chosen.value = o.value := by
  cases o <;> rfl

variable {limit : Option Nat} {b : Block} {f : FrameId} {w u : World} {o o' : Outcome}

/-- After the chosen block, the last statement of a program is over. -/
theorem ends_chosen_iff :
    Ends limit ⟨o'.control, [.chosen, .more [] f], w⟩ o u ↔ o'.chosen = o ∧ w = u := by
  have hend : after limit 2 ⟨o'.control, [.chosen, .more [] f], w⟩ =
      ⟨o'.chosen.control, [], w⟩ := by
    cases o' <;> rfl
  rw [← ends_after_iff 2, hend, ends_outcome_iff]

/-- The condition takes its steps, and then the block runs as it would on its own. -/
theorem ends_wrapped_iff : Ends limit (load b.wrapped f w) o u ↔
    ∃ o', Ends limit (load b f w) o' u ∧ o'.chosen = o := by
  have hblock : (load b.wrapped f w).after limit 5 = (load b f w).onto [.chosen, .more [] f] := rfl
  rw [← ends_after_iff 5, hblock, ends_onto_iff]
  simp only [ends_chosen_iff]
  constructor
  · rintro ⟨o', u, hb, ho, rfl⟩
    exact ⟨o', hb, ho⟩
  · rintro ⟨o', hb, ho⟩
    exact ⟨o', u, hb, ho, rfl⟩

end Machine

namespace Program

open Machine

variable {limit : Option Nat} {p : Program} {f : FrameId} {w u : World} {v : Value}

theorem run_wrapped_once_iff : (∃ n, Program.run limit n (Block.wrapped p) f w = some (v, u)) ↔
    ∃ n, p.run limit n f w = some (v, u) := by
  simp only [run_iff, ends_wrapped_iff]
  constructor
  · rintro ⟨_, ⟨o, hb, rfl⟩, rfl⟩
    exact ⟨o, hb, o.value_chosen.symm⟩
  · rintro ⟨o, hb, rfl⟩
    exact ⟨o.chosen, ⟨o, hb, rfl⟩, o.value_chosen⟩

end Program

end MonkeyLang
