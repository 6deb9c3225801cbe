/-
Signals do not become data. If no variable holds a signal, also not deep within
an array or a hash, then none ever will: `return`, `break`, `continue` and
errors cut evaluations short, but nothing keeps them, and none but an error
gets out of a call.
-/
import MonkeyLang.Proofs.Faults
import MonkeyLang.Proofs.Law
import MonkeyLang.Proofs.Series

namespace MonkeyLang

/-- No signal is within the value. -/
def Value.Ordinary (v : Value) : Prop := ∀ u ∈ v.within, ¬u.IsSignal

instance : DecidablePred Value.IsSignal
  | .signal _ => .isTrue trivial
  | .null | .integer _ | .boolean _ | .string _ | .array _ | .hash _ | .function _ | .builtin _ =>
    .isFalse id

instance (v : Value) : Decidable v.Ordinary :=
  inferInstanceAs (Decidable (∀ u ∈ v.within, ¬u.IsSignal))

/-- A value as it comes out of a call or of a program: what ends it early is an error. -/
def Value.OrdinaryOrFault (v : Value) : Prop := v.Ordinary ∨ ∃ e, v = .signal (.fault e)

/-- All variables hold ordinary values. -/
def World.Ordinary (w : World) : Prop :=
  ∀ frame ∈ w.store.frames, ∀ slot ∈ frame.slots, slot.2.Ordinary

instance (w : World) : Decidable w.Ordinary :=
  inferInstanceAs (Decidable (∀ frame ∈ w.store.frames, ∀ slot ∈ frame.slots, slot.2.Ordinary))

/-- All values that are going around are ordinary, and so is what a `return` carries. -/
def Control.Ordinary : Control → Prop
  | .apply callee arguments => callee.Ordinary ∧ ∀ v ∈ arguments, v.Ordinary
  | .done result => ∀ v ∈ result, v.Ordinary
  | .raised (.returned v) => v.Ordinary
  | _ => True

/-- No signals are kept. -/
def Law.ordinary : Law := { Law.free with signals := False }

section

variable {n : Nat} {v : Value} {w : World} {c : Control}

theorem Value.obeys_ordinary : v.Obeys .ordinary n ↔ v.Ordinary := by
  have hiff : ∀ u : Value, Law.ordinary.Admits n u ↔ ¬u.IsSignal := by
    intro u
    cases u <;> simp [Law.Admits, Value.IsSignal, Law.ordinary, Law.free, Expr.Obeys]
  exact forall₂_congr fun u _ => hiff u

theorem World.obeys_ordinary : w.Obeys .ordinary ↔ w.Ordinary := by
  constructor
  · intro h frame hframe slot hslot
    obtain ⟨f, hf⟩ := Array.mem_iff_getElem?.1 hframe
    exact Value.obeys_ordinary.1 (h.slot trivial hf hslot)
  · intro h
    refine ⟨Nat.zero_le _, fun _ _ _ => trivial, fun _ hf hs => ?_⟩
    exact Value.obeys_ordinary.2 (h _ (Array.mem_of_getElem? hf) _ hs)

theorem Control.obeys_ordinary : c.Obeys .ordinary n ↔ c.Ordinary := by
  cases c with
  | expr | stmt => exact iff_of_true ⟨fun _ _ => trivial, trivial⟩ trivial
  | block => exact iff_of_true ⟨fun _ _ _ _ => trivial, trivial⟩ trivial
  | apply callee arguments =>
    exact and_congr Value.obeys_ordinary (forall₂_congr fun _ _ => Value.obeys_ordinary)
  | done result => exact forall₂_congr fun _ _ => Value.obeys_ordinary
  | raised s =>
    cases s with
    | returned v => exact Value.obeys_ordinary
    | _ => exact iff_of_true (List.forall_mem_nil _) trivial

end

namespace Machine

section

variable {limit : Option Nat} {n : Nat} {c : Control} {k : List Pending} {w u : World} {o : Outcome}
  {callee v : Value} {arguments : List Value}

theorem obeys_part (hw : w.Ordinary) (hc : c.Ordinary) : Obeys .ordinary ⟨c, [], w⟩ :=
  ⟨World.obeys_ordinary.2 hw, Control.obeys_ordinary.2 hc, List.forall_mem_nil _⟩

/-- All that goes around during a run is ordinary. -/
theorem ordinary_after (hw : w.Ordinary) (hc : c.Ordinary) (i : Nat) :
    (after limit i ⟨c, [], w⟩).world.Ordinary ∧ (after limit i ⟨c, [], w⟩).control.Ordinary := by
  have h := (obeys_part hw hc).after limit i
  exact ⟨World.obeys_ordinary.1 h.world, Control.obeys_ordinary.1 h.control⟩

theorem ordinary_of_run (hw : w.Ordinary) (hc : c.Ordinary)
    (h : run limit n ⟨c, [], w⟩ = some (o, u)) : u.Ordinary ∧ o.control.Ordinary := by
  have ha := (obeys_part hw hc).of_run h
  exact ⟨World.obeys_ordinary.1 ha.1, Control.obeys_ordinary.1 ha.2⟩

/-- An ordinary value or an error. -/
def Outcome.Closed (o : Outcome) : Prop :=
  (∃ v, o = .ok (some v) ∧ v.Ordinary) ∨ ∃ e, o = .error (.fault e)

/-- Nothing is left to do, and the outcome is an ordinary value or an error. -/
def Closed (m : Machine) : Prop := ∃ o, m.outcome? = some o ∧ o.Closed

theorem Closed.of_run {m : Machine} (hm : m.Closed) (h : m.run limit n = some (o, u)) :
    o.Closed := by
  obtain ⟨o', ho, hc⟩ := hm
  rw [run_of_outcome ho] at h
  cases h
  exact hc

theorem closed_settle (h : v.Ordinary) : Closed ⟨settle v, [], w⟩ := by
  cases v with
  | signal s => exact absurd trivial (h _ (Value.mem_within_self _))
  | _ => exact ⟨.ok (some _), rfl, .inl ⟨_, rfl, h⟩⟩

theorem closed_raise (e : Fault) : Closed ⟨raise e, [], w⟩ := ⟨.error (.fault e), rfl, .inr ⟨e, rfl⟩⟩

/-- However the body of a function ends, the call ends with a value or an error. -/
theorem closed_end (h : o.control.Ordinary) : (step limit ⟨o.control, [.call], w⟩).Closed := by
  cases o with
  | ok result =>
    have hv : (result.getD .null).Ordinary := by
      cases result with
      | none => exact Value.obeys_ordinary.1 (Value.obeys_null (n := 0))
      | some v => exact h v rfl
    exact ⟨.ok (some _), rfl, .inl ⟨_, rfl, hv⟩⟩
  | error s =>
    cases s with
    | fault e => exact closed_raise e
    | returned v => exact closed_settle h
    | brk | cont => exact closed_raise .outsideLoop

/-- A call is over at once, or the body of a function begins. -/
theorem call_cases (ha : ∀ v ∈ arguments, v.Ordinary) :
    (call limit callee arguments [] w).Closed ∨
      ∃ b f w', call limit callee arguments [] w = onto ⟨.block b f, [], w'⟩ [.call] := by
  cases callee with
  | function c =>
    simp only [call]
    split
    · exact .inl (closed_raise _)
    · split
      · exact .inl (closed_raise _)
      · exact .inr ⟨_, _, _, rfl⟩
  | builtin b =>
    refine .inl ?_
    simp only [call]
    cases hr : (b.call arguments w).1 with
    | ok v =>
      have ha : ∀ v ∈ arguments, v.Obeys .ordinary 0 := fun v hv => Value.obeys_ordinary.2 (ha v hv)
      exact closed_settle (Value.obeys_ordinary.1 (Builtin.call_obeys ha hr))
    | error e => exact closed_raise e
  | _ => exact .inl (closed_raise _)

/-- A call of ordinary values comes back with an ordinary value or an error. -/
theorem closed_of_call (hw : w.Ordinary) (hc : callee.Ordinary) (ha : ∀ v ∈ arguments, v.Ordinary)
    (h : run limit n ⟨.apply callee arguments, [], w⟩ = some (o, u)) : o.Closed := by
  have hobeys := (obeys_part (c := .apply callee arguments) hw ⟨hc, ha⟩).step limit
  have hrun : (call limit callee arguments [] w).run limit n = some (o, u) := run_after h 1
  rcases call_cases ha with hclosed | ⟨b, f, w', hbody⟩
  · exact hclosed.of_run hrun
  · have hw' : w'.Ordinary := by
      have hworld : (call limit callee arguments [] w).world = w' := by rw [hbody]; rfl
      exact World.obeys_ordinary.1 (hworld ▸ hobeys.world)
    rw [hbody] at hrun
    obtain ⟨i, o', u', hpart, hrest⟩ := run_onto hrun
    have ho' := (ordinary_of_run (c := .block b f) hw' trivial hpart).2
    exact (closed_end ho').of_run (run_after hrest 1)

end

end Machine

theorem Value.ordinaryOrFault_of_obeys {n : Nat} {v : Value}
    (h : v.Obeys .ordinary n ∨ ∃ e, v = .signal (.fault e)) : v.OrdinaryOrFault :=
  h.imp Value.obeys_ordinary.1 id

theorem Block.obeys_ordinary (b : Block) : Block.Obeys .ordinary b := fun _ _ _ _ => trivial

/-- Signals and errors never become data. In a world where all variables hold ordinary values,
whatever is evaluated, every variable and everything that goes around on the way is ordinary, so is
what a `return` carries, and programs and calls come to an ordinary value or an error. So it is
after any series of runs that begins without variables. -/
theorem World.ordinary_forever {w : World} (hw : w.Ordinary) :
    (∀ limit c i, c.Ordinary → let m := Machine.after limit i ⟨c, [], w⟩
      m.world.Ordinary ∧ m.control.Ordinary) ∧
    (∀ limit n (p : Program) f v u, p.run limit n f w = some (v, u) →
      u.Ordinary ∧ v.OrdinaryOrFault) ∧
    (∀ limit n callee arguments o u, callee.Ordinary → (∀ v ∈ arguments, v.Ordinary) →
      Machine.run limit n ⟨.apply callee arguments, [], w⟩ = some (o, u) →
      u.Ordinary ∧ o.Closed) ∧
    ∀ draws n ps vs s, Session.runAll (fun p => Session.runProgram n p) ps (.fresh draws) =
      some (vs, s) → s.world.Ordinary ∧ ∀ v ∈ vs, v.OrdinaryOrFault := by
  refine ⟨fun limit c i hc => Machine.ordinary_after hw hc i, fun limit n p f v u h => ?_,
    fun limit n callee arguments o u hc ha h => ⟨?_, Machine.closed_of_call hw hc ha h⟩,
    fun draws n ps vs s h => ?_⟩
  · obtain ⟨hu, -, hv⟩ :=
      p.obeys_of_run (World.obeys_ordinary.2 hw) (Block.obeys_ordinary p) trivial h
    exact ⟨World.obeys_ordinary.1 hu, Value.ordinaryOrFault_of_obeys hv⟩
  · exact (Machine.ordinary_of_run (c := .apply callee arguments) hw ⟨hc, ha⟩ h).1
  · have hrun : ∀ p ∈ ps, ∀ (s : Session) v t, s.Obeys .ordinary →
        s.runProgram n p = some (v, t) → t.Obeys .ordinary ∧ v.OrdinaryOrFault := by
      intro p _ s v t hs hr
      exact (hs.of_run (Block.obeys_ordinary p) hr).imp id Value.ordinaryOrFault_of_obeys
    obtain ⟨hs, hvs⟩ := Session.runAll_keeps hrun (Session.obeys_fresh rfl draws) h
    exact ⟨World.obeys_ordinary.1 hs.world, hvs⟩

/-- A function whose `return` comes from within an array, in a loop. -/
def hasty : Program :=
  [.expr (.call (.function [] [.expr (.forIn "x" (.ident "xs")
    [.expr (.array [.integer 1, .ifElse (.boolean true) [.ret (.ident "x")] none])])]) [])]

theorem World.ordinary_forever_hasty :
    let w := ((Session.fresh fun _ => 0).define "xs" (.array [.string "a", .builtin .len])).world
    w.Ordinary ∧ ∃ u, hasty.run none 40 0 w = some (.string "a", u) ∧ u.Ordinary := by
  intro w
  have hw : w.Ordinary := by decide
  obtain ⟨u, hu⟩ : ∃ u, hasty.run none 40 0 w = some (.string "a", u) := ⟨_, rfl⟩
  obtain ⟨-, hrun, -, -⟩ := World.ordinary_forever hw
  exact ⟨hw, u, hu, (hrun none 40 hasty 0 _ u hu).1⟩

end MonkeyLang
