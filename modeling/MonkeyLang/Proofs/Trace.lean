/-
The machine after some number of steps, and the parts of a run. A part is what
a machine does until it comes back to the stack that it began with; it runs the
same on an empty stack, so the outcome of a part is the outcome of a run.
-/
import MonkeyLang.Machine.Run

namespace MonkeyLang.Machine

variable {limit : Option Nat} {m : Machine} {i j n : Nat} {k : List Pending} {w w' : World}
  {o : Outcome}

/-! ## Steps -/

/-- The machine after `n` steps. -/
def after (limit : Option Nat) : Nat → Machine → Machine
  | 0, m => m
  | n + 1, m => after limit n (m.step limit)

@[simp] theorem after_zero (m : Machine) : m.after limit 0 = m := rfl

theorem after_add (i j : Nat) (m : Machine) :
    m.after limit (i + j) = (m.after limit i).after limit j := by
  induction i generalizing m with
  | zero => rw [Nat.zero_add, after_zero]
  | succ i ih => rw [Nat.add_right_comm, after, ih, after]

theorem after_succ (n : Nat) (m : Machine) :
    m.after limit (n + 1) = (m.after limit n).step limit :=
  after_add n 1 m

/-- The control of a machine whose part ended so. -/
def Outcome.control : Outcome → Control
  | .ok result => .done result
  | .error s => .raised s

theorem outcome?_eq_some : m.outcome? = some o ↔ m = ⟨o.control, [], m.world⟩ := by
  obtain ⟨c, k, w⟩ := m
  cases c <;> cases k <;> cases o <;> simp [outcome?, Outcome.control]

/-- A machine with nothing left to do stays as it is. -/
theorem step_of_outcome (h : m.outcome? = some o) : m.step limit = m := by
  rw [outcome?_eq_some] at h
  rw [h]
  cases o <;> rfl

theorem after_of_outcome (h : m.outcome? = some o) (n : Nat) : m.after limit n = m := by
  induction n with
  | zero => rfl
  | succ n ih => rw [after, step_of_outcome h, ih]

/-- A run gives the outcome of the machine after so many steps. -/
theorem run_eq (n : Nat) (m : Machine) :
    m.run limit n = (m.after limit n).outcome?.map (·, (m.after limit n).world) := by
  induction n generalizing m with
  | zero => rfl
  | succ n ih =>
    cases ho : m.outcome? with
    | none => rw [run_step ho, ih, after]
    | some o => rw [run_of_outcome ho, after_of_outcome ho, ho, Option.map_some]

theorem run_eq_some : m.run limit n = some (o, w) ↔ m.after limit n = ⟨o.control, [], w⟩ := by
  rw [run_eq, Option.map_eq_some_iff]
  constructor
  · intro ⟨o', ho, he⟩
    obtain ⟨rfl, rfl⟩ := Prod.mk.inj he
    exact outcome?_eq_some.1 ho
  · intro h
    rw [h]
    exact ⟨o, outcome?_eq_some.2 rfl, rfl⟩

/-- Two runs that come to an end come to the same one. -/
theorem run_unique {r r' : Outcome × World} (h : m.run limit i = some r)
    (h' : m.run limit j = some r') : r = r' := by
  have hi := run_mono h (Nat.le_max_left i j)
  have hj := run_mono h' (Nat.le_max_right i j)
  exact Option.some.inj (hi.symm.trans hj)

/-! ## Parts -/

/-- The machine with more to be done afterwards. -/
def onto (m : Machine) (k : List Pending) : Machine := ⟨m.control, m.stack ++ k, m.world⟩

section

variable {f : FrameId} {k' : List Pending}

theorem items_onto {before : List Value} {after : List Expr} :
    (items before after f k w).onto k' = items before after f (k ++ k') w := by
  cases after <;> rfl

theorem entries_onto {before : Entries Value} {after : List (Expr × Expr)} :
    (entries before after f k w).onto k' = entries before after f (k ++ k') w := by
  cases after <;> rfl

theorem arguments_onto {callee : Value} {before : List Value} {after : List Expr} :
    (arguments callee before after f k w).onto k' =
      arguments callee before after f (k ++ k') w := by
  cases after <;> rfl

theorem forPass_onto {x : String} {after : List Value} {body : Block} {result : Value} :
    (forPass x after body f result k w).onto k' = forPass x after body f result (k ++ k') w := by
  cases after <;> rfl

theorem evaluate_onto (e : Expr) : (evaluate e f k w).onto k' = evaluate e f (k ++ k') w := by
  cases e with
  | ident x =>
    simp only [evaluate]
    split
    · rfl
    · split <;> rfl
  | array es => exact items_onto
  | hash es => exact entries_onto
  | _ => rfl

theorem execute_onto (s : Stmt) : (execute s f k w).onto k' = execute s f (k ++ k') w := by
  cases s <;> rfl

theorem statements_onto (b : Block) :
    (statements b f k w).onto k' = statements b f (k ++ k') w := by
  cases b <;> rfl

theorem call_onto (callee : Value) (arguments : List Value) :
    (call limit callee arguments k w).onto k' = call limit callee arguments (k ++ k') w := by
  cases callee with
  | function c =>
    simp only [call]
    split
    · rfl
    · split <;> rfl
  | _ => rfl

theorem resume_onto (result : Option Value) (p : Pending) :
    (resume result p k w).onto k' = resume result p (k ++ k') w := by
  cases p with
  | more b f => cases b <;> rfl
  | item before after f => exact items_onto
  | entryKey before value after f =>
    simp only [resume]
    split <;> rfl
  | entryValue before key after f => exact entries_onto
  | choose b d f =>
    simp only [resume]
    split
    · rfl
    · split <;> rfl
  | iterate x body f =>
    simp only [resume]
    split
    · exact forPass_onto
    · rfl
  | forPass x after body f result => exact forPass_onto
  | test c body f before =>
    simp only [resume]
    split <;> rfl
  | callee args f => exact arguments_onto
  | argument callee before after f => exact arguments_onto
  | _ => rfl

theorem unwind_onto (s : Signal) (p : Pending) :
    (unwind s p k w).onto k' = unwind s p (k ++ k') w := by
  cases p with
  | forPass x after body f result =>
    cases s with
    | cont => exact forPass_onto
    | _ => rfl
  | whilePass c body f result => cases s <;> rfl
  | call => cases s <;> rfl
  | _ => rfl

end

/-- What is to be done afterwards makes no difference to a step. -/
theorem step_onto (h : m.outcome? = none) : (m.onto k).step limit = (m.step limit).onto k := by
  obtain ⟨c, stack, w⟩ := m
  cases c with
  | expr e f => exact (evaluate_onto e).symm
  | stmt s f => exact (execute_onto s).symm
  | block b f => exact (statements_onto b).symm
  | apply callee arguments => exact (call_onto callee arguments).symm
  | done result =>
    cases stack with
    | nil => simp [outcome?] at h
    | cons p stack => exact (resume_onto result p).symm
  | raised s =>
    cases stack with
    | nil => simp [outcome?] at h
    | cons p stack => exact (unwind_onto s p).symm

/-- A part that ends on its own ends in the same way with more to be done afterwards, and after the
same number of steps whatever that is. -/
theorem exists_after_onto (h : m.run limit n = some (o, w)) :
    ∃ i, i ≤ n ∧ ∀ k, (m.onto k).after limit i = ⟨o.control, k, w⟩ := by
  induction n generalizing m with
  | zero =>
    rw [run_eq_some, after_zero] at h
    exact ⟨0, Nat.le_refl 0, fun k => by rw [h]; rfl⟩
  | succ n ih =>
    cases ho : m.outcome? with
    | some o' =>
      have hm := run_eq_some.1 h
      rw [after_of_outcome ho] at hm
      exact ⟨0, Nat.zero_le _, fun k => by rw [hm]; rfl⟩
    | none =>
      rw [run_step ho] at h
      obtain ⟨i, hi, ha⟩ := ih h
      exact ⟨i + 1, Nat.succ_le_succ hi, fun k => by rw [after, step_onto ho, ha]⟩

theorem after_onto (k : List Pending) (h : m.run limit n = some (o, w)) :
    ∃ i, i ≤ n ∧ (m.onto k).after limit i = ⟨o.control, k, w⟩ := by
  obtain ⟨i, hi, ha⟩ := exists_after_onto h
  exact ⟨i, hi, ha k⟩

/-- A run goes on to its end from every machine on the way. -/
theorem run_after (h : m.run limit n = some (o, w)) (i : Nat) :
    (m.after limit i).run limit n = some (o, w) := by
  rw [run_eq_some] at h ⊢
  rw [← after_add, Nat.add_comm, after_add, h, after_of_outcome (outcome?_eq_some.2 rfl)]

theorem outcome?_onto (h : m.outcome? = none) : (m.onto k).outcome? = none := by
  obtain ⟨c, stack, w⟩ := m
  cases c <;> cases stack <;> simp_all [outcome?, onto]

/-- If a run ends, so does its first part. -/
theorem run_isSome_of_onto (h : ((m.onto k).run limit n).isSome) :
    ∃ i r, m.run limit i = some r := by
  induction n generalizing m with
  | zero =>
    cases ho : m.outcome? with
    | some o => exact ⟨0, _, run_of_outcome ho 0⟩
    | none => simp [run, outcome?_onto ho] at h
  | succ n ih =>
    cases ho : m.outcome? with
    | some o => exact ⟨0, _, run_of_outcome ho 0⟩
    | none =>
      rw [run_step (outcome?_onto ho), step_onto ho] at h
      obtain ⟨i, r, hr⟩ := ih h
      exact ⟨i + 1, r, by rw [run_step ho, hr]⟩

/-- A run is that of its first part and then that of what was to be done afterwards. -/
theorem run_onto (h : (m.onto k).run limit n = some (o, w)) :
    ∃ i o' w', m.run limit i = some (o', w') ∧
      run limit n ⟨o'.control, k, w'⟩ = some (o, w) := by
  obtain ⟨i, ⟨o', w'⟩, hi⟩ := run_isSome_of_onto (by rw [h]; rfl)
  obtain ⟨j, -, ha⟩ := after_onto k hi
  exact ⟨i, o', w', hi, ha ▸ run_after h j⟩

end MonkeyLang.Machine
