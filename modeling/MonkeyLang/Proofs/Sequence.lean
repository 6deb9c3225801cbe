/-
Programs one after another. What is left of a block goes on from the outcome of
the statements before it: an early one passes it by, any other one only matters
if nothing is left. So a program in two pieces runs as the first and then the
second.
-/
import MonkeyLang.Proofs.Trace
import MonkeyLang.Session

namespace MonkeyLang

namespace Machine

/-- Some steps of the machine lead from the one to the other. -/
def Leads (limit : Option Nat) (m m' : Machine) : Prop := ∃ n, m.after limit n = m'

/-- The machine comes to this outcome and leaves this world. -/
def Ends (limit : Option Nat) (m : Machine) (o : Outcome) (w : World) : Prop :=
  ∃ n, m.run limit n = some (o, w)

/-- The rest of a block, after statements with this outcome. -/
def rest (b : Block) (o : Outcome) (f : FrameId) (w : World) : Machine :=
  ⟨o.control, [.more b f], w⟩

variable {limit : Option Nat} {m m' m'' : Machine} {o o' : Outcome} {w u u' : World} {f : FrameId}
  {k : List Pending} {b p q : Block} {s : Stmt} {r : Option Value} {sig : Signal} {c : Control}

theorem Leads.refl (m : Machine) : Leads limit m m := ⟨0, rfl⟩

theorem Leads.trans (h : Leads limit m m') (h' : Leads limit m' m'') : Leads limit m m'' := by
  obtain ⟨i, rfl⟩ := h
  obtain ⟨j, rfl⟩ := h'
  exact ⟨i + j, after_add i j m⟩

theorem Leads.of_step (h : Leads limit (m.step limit) m') : Leads limit m m' := by
  obtain ⟨n, hn⟩ := h
  exact ⟨n + 1, hn⟩

theorem Ends.unique (h : Ends limit m o u) (h' : Ends limit m o' u') : o = o' ∧ u = u' := by
  obtain ⟨n, h⟩ := h
  obtain ⟨n', h'⟩ := h'
  exact Prod.mk.inj (run_unique h h')

theorem ends_of_outcome : Ends limit ⟨o.control, [], w⟩ o w :=
  ⟨0, run_eq_some.2 rfl⟩

theorem ends_outcome_iff : Ends limit ⟨o.control, [], w⟩ o' u ↔ o = o' ∧ w = u := by
  constructor
  · exact fun h => ends_of_outcome.unique h
  · rintro ⟨rfl, rfl⟩
    exact ends_of_outcome

/-- The next step makes no difference. -/
theorem ends_step_iff : Ends limit (m.step limit) o w ↔ Ends limit m o w := by
  cases ho : m.outcome? with
  | some o => rw [step_of_outcome ho]
  | none =>
    constructor
    · intro ⟨n, h⟩
      exact ⟨n + 1, by rw [run_step ho, h]⟩
    · intro ⟨n, h⟩
      exact ⟨n, run_after h 1⟩

theorem ends_after_iff (n : Nat) : Ends limit (m.after limit n) o w ↔ Ends limit m o w := by
  induction n generalizing m with
  | zero => exact Iff.rfl
  | succ n ih => rw [after, ih, ends_step_iff]

/-- What the machine leads to comes to the same end. -/
theorem Leads.ends (h : Leads limit m m') (h' : Ends limit m' o w) : Ends limit m o w := by
  obtain ⟨n, rfl⟩ := h
  exact (ends_after_iff n).1 h'

/-- A part that ends leads to what is to be done afterwards. -/
theorem Ends.leads (h : Ends limit ⟨c, [], w⟩ o u) (k : List Pending) :
    Leads limit ⟨c, k, w⟩ ⟨o.control, k, u⟩ := by
  obtain ⟨n, h⟩ := h
  obtain ⟨i, -, hi⟩ := after_onto k h
  exact ⟨i, hi⟩

/-- A machine comes to its end through the end of its first part. -/
theorem ends_onto_iff : Ends limit (m.onto k) o u ↔
    ∃ o' u', Ends limit m o' u' ∧ Ends limit ⟨o'.control, k, u'⟩ o u := by
  constructor
  · intro ⟨n, h⟩
    obtain ⟨i, o', u', hm, hk⟩ := run_onto h
    exact ⟨o', u', ⟨i, hm⟩, n, hk⟩
  · intro ⟨o', u', ⟨i, hm⟩, n, hk⟩
    obtain ⟨j, -, ha⟩ := after_onto k hm
    refine ⟨j + n, ?_⟩
    rw [run_eq_some] at hk ⊢
    rw [after_add, ha, hk]

/-- With nothing left, the outcome stays. -/
theorem ends_rest_nil : Ends limit (rest [] o f w) o' u ↔ o = o' ∧ w = u := by
  rw [← ends_step_iff]
  cases o with
  | ok r => exact ends_outcome_iff (o := .ok r)
  | error sig => exact ends_outcome_iff (o := .error sig)

theorem ends_rest_cons : Ends limit (rest (s :: b) (.ok r) f w) o u ↔
    ∃ o' u', Ends limit ⟨.stmt s f, [], w⟩ o' u' ∧ Ends limit (rest b o' f u') o u :=
  ends_step_iff.symm.trans (ends_onto_iff (m := ⟨.stmt s f, [], w⟩) (k := [.more b f]))

/-- What is left is passed by. -/
theorem ends_rest_error : Ends limit (rest b (.error sig) f w) o u ↔ .error sig = o ∧ w = u :=
  ends_step_iff.symm.trans (ends_outcome_iff (o := .error sig))

/-- At the beginning of a program nothing has come before. -/
theorem ends_load : Ends limit (load p f w) o u ↔ Ends limit (rest p (.ok none) f w) o u := by
  rw [← ends_step_iff, ← ends_step_iff (m := rest p _ f w)]
  cases p <;> exact Iff.rfl

/-- A program without statements does not end early. -/
theorem ne_nil_of_ends (h : Ends limit (load p f w) (.error sig) u) : p ≠ [] := by
  rintro rfl
  rw [ends_load, ends_rest_nil] at h
  cases h.1

/-- What came before only matters if there is no statement. -/
theorem ends_rest_iff : Ends limit (rest p (.ok r) f w) o u ↔
    ∃ o', Ends limit (load p f w) o' u ∧ o = if p = [] then .ok r else o' := by
  cases p with
  | nil =>
    simp only [ends_load, ends_rest_nil, if_true]
    constructor
    · rintro ⟨rfl, rfl⟩
      exact ⟨_, ⟨rfl, rfl⟩, rfl⟩
    · rintro ⟨o', ⟨-, rfl⟩, rfl⟩
      exact ⟨rfl, rfl⟩
  | cons s b =>
    simp only [ends_load, ends_rest_cons, reduceCtorEq, if_false]
    constructor
    · exact fun h => ⟨o, h, rfl⟩
    · rintro ⟨o', h, rfl⟩
      exact h

theorem Ends.rest (h : Ends limit (load p f w) o u) (r : Option Value) :
    Ends limit (rest p (.ok r) f w) (if p = [] then .ok r else o) u :=
  ends_rest_iff.2 ⟨o, h, rfl⟩

/-- Two pieces run one after the other. -/
theorem ends_rest_append : Ends limit (rest (p ++ q) o f w) o' u ↔
    ∃ o₁ u₁, Ends limit (rest p o f w) o₁ u₁ ∧ Ends limit (rest q o₁ f u₁) o' u := by
  induction p generalizing o w with
  | nil =>
    constructor
    · exact fun h => ⟨o, w, ends_rest_nil.2 ⟨rfl, rfl⟩, h⟩
    · rintro ⟨o₁, u₁, h₁, h⟩
      obtain ⟨rfl, rfl⟩ := ends_rest_nil.1 h₁
      exact h
  | cons s p ih =>
    cases o with
    | ok r =>
      rw [List.cons_append, ends_rest_cons]
      constructor
      · rintro ⟨o₀, u₀, hs, hrest⟩
        obtain ⟨o₁, u₁, hp, hq⟩ := ih.1 hrest
        exact ⟨o₁, u₁, ends_rest_cons.2 ⟨o₀, u₀, hs, hp⟩, hq⟩
      · rintro ⟨o₁, u₁, hp, hq⟩
        obtain ⟨o₀, u₀, hs, hp⟩ := ends_rest_cons.1 hp
        exact ⟨o₀, u₀, hs, ih.2 ⟨o₁, u₁, hp, hq⟩⟩
    | error sig =>
      constructor
      · intro h
        have h := ends_rest_error.1 h
        exact ⟨.error sig, w, ends_rest_error.2 ⟨rfl, rfl⟩, ends_rest_error.2 h⟩
      · rintro ⟨o₁, u₁, hp, hq⟩
        obtain ⟨rfl, rfl⟩ := ends_rest_error.1 hp
        exact ends_rest_error.2 (ends_rest_error.1 hq)

end Machine

/-! ## Whole runs -/

open Machine

/-- A program comes to the value of the outcome that its block ends with. -/
theorem Program.run_iff {limit : Option Nat} {p : Program} {f : FrameId} {w u : World} {v : Value} :
    (∃ n, p.run limit n f w = some (v, u)) ↔ ∃ o, Ends limit (load p f w) o u ∧ o.value = v := by
  constructor
  · rintro ⟨n, h⟩
    obtain ⟨⟨o, u⟩, hr, he⟩ := Option.map_eq_some_iff.1 h
    cases he
    exact ⟨o, ⟨n, hr⟩, rfl⟩
  · rintro ⟨o, ⟨n, hr⟩, rfl⟩
    exact ⟨n, by rw [Program.run, hr]; rfl⟩

namespace Session

variable {s t : Session} {source : String} {a : Answer} {p : Program} {o : Outcome} {u : World}

/-- The run of a source without errors. -/
theorem run_iff (h : (parse source).errors = []) : (∃ n, s.run n source = some (a, t)) ↔
    ∃ o u, Ends (some callLimit) (load (parse source).program s.globals s.world) o u ∧
      a = .value o.value ∧ t = ⟨u, s.globals⟩ := by
  simp only [run, h, List.isEmpty_nil, if_true, runProgram, Option.map_map]
  constructor
  · rintro ⟨n, hn⟩
    obtain ⟨⟨v, u⟩, hr, he⟩ := Option.map_eq_some_iff.1 hn
    cases he
    obtain ⟨o, ho, rfl⟩ := Program.run_iff.1 ⟨n, hr⟩
    exact ⟨o, u, ho, rfl, rfl⟩
  · rintro ⟨o, u, ho, rfl, rfl⟩
    obtain ⟨n, hr⟩ := Program.run_iff.2 ⟨o, ho, rfl⟩
    exact ⟨n, by rw [hr]; rfl⟩

/-- A source without errors is run as the program that it spells. -/
theorem run_of_ends (hp : (parse source).program = p) (he : (parse source).errors = [])
    (h : Ends (some callLimit) (load p s.globals s.world) o u) :
    ∃ n, s.run n source = some (.value o.value, { s with world := u }) := by
  subst hp
  exact (run_iff he).2 ⟨o, u, h, rfl, rfl⟩

end Session

end MonkeyLang
