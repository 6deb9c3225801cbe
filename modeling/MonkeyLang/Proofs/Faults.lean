/-
An error is final. Once a part of a program has come to an error, the machine
only drops what was waiting, down to the empty stack: the program ends with
that error, and on the way nothing is bound, called or printed. What a step
does beyond moving on is told by its events, and they account for every change
to the frames and to the output.
-/
import MonkeyLang.Proofs.Trace

namespace MonkeyLang

/-- What can be noticed of a step. -/
inductive Event where
  /-- A name is bound in a frame. -/
  | set (f : FrameId) (name : String) (v : Value)
  /-- A variable of a frame gets another value. -/
  | reset (f : FrameId) (name : String) (v : Value)
  /-- A frame is made below another, with bindings. -/
  | frame (parent : FrameId) (slots : Slots)
  | call (callee : Value) (arguments : List Value)
  | print (text : String)

/-- The world after the event. -/
def Event.apply : Event → World → World
  | .set f name v, w => w.define f name v
  | .reset f name v, w => w.define f name v
  | .frame parent slots, w => (w.newFrame (some parent) slots).2
  | .call _ _, w => w
  | .print text, w => w.print text

namespace Machine

/-- The events of the next pass of a `for`. -/
def passEvents (name : String) (after : List Value) (f : FrameId) : List Event :=
  match after with
  | [] => []
  | v :: _ => [.frame f (.ofList [(name, v)])]

/-- The events of a call. A call that is refused makes no frame. -/
def callEvents (limit : Option Nat) (callee : Value) (arguments : List Value) (w : World) :
    List Event :=
  .call callee arguments ::
    match callee with
    | .function c =>
      if arguments.length < c.parameters.length then []
      else
        match limit.filter (· ≤ w.depth) with
        | some _ => []
        | none => [.frame c.frame (.ofList (c.parameters.zip arguments))]
    | .builtin .puts => [.print (String.join (arguments.map fun v => v.display ++ "\n"))]
    | _ => []

/-- The events of going on with a value. -/
def resumeEvents (v : Value) (p : Pending) (w : World) : List Event :=
  match p with
  | .define name f => [.set f name v]
  | .assign name f =>
    match w.store.resolve? f name with
    | some g => [.reset g name v]
    | none => []
  | .iterate name _ f =>
    match v with
    | .array vs => passEvents name vs f
    | _ => []
  | .forPass name after _ f _ => passEvents name after f
  | .test _ _ f _ => if v.isTruthy then [.frame f []] else []
  | _ => []

/-- The events of the next step. -/
def events (limit : Option Nat) (m : Machine) : List Event :=
  match m with
  | ⟨.apply callee arguments, _, w⟩ => callEvents limit callee arguments w
  | ⟨.done result, p :: _, w⟩ => resumeEvents (result.getD .null) p w
  | ⟨.raised .cont, .forPass name after _ f _ :: _, _⟩ => passEvents name after f
  | _ => []

/-- The step to `m` from a world did no more to the frames and the output than the events. -/
def Accounts (es : List Event) (w : World) (m : Machine) : Prop :=
  let w' := es.foldl (fun w e => e.apply w) w
  m.world.store = w'.store ∧ m.world.output = w'.output

section

variable {limit : Option Nat} {f : FrameId} {k : List Pending} {w : World}

theorem accounts_pass (name : String) (after : List Value) (body : Block) (result : Value) :
    Accounts (passEvents name after f) w (forPass name after body f result k w) := by
  cases after <;> exact ⟨rfl, rfl⟩

theorem accounts_evaluate (e : Expr) : Accounts [] w (evaluate e f k w) := by
  cases e with
  | ident x =>
    simp only [evaluate]
    split
    · exact ⟨rfl, rfl⟩
    · split <;> exact ⟨rfl, rfl⟩
  | array es => cases es <;> exact ⟨rfl, rfl⟩
  | hash es => cases es <;> exact ⟨rfl, rfl⟩
  | _ => exact ⟨rfl, rfl⟩

/-- Of the built-in functions only `puts` prints, and none binds a variable. -/
theorem accounts_builtin (b : Builtin) (arguments : List Value) :
    Accounts (callEvents limit (.builtin b) arguments w) w
      (call limit (.builtin b) arguments k w) := by
  cases b <;> simp only [Accounts, callEvents, call, Builtin.call] <;> (repeat' split) <;>
    exact ⟨rfl, rfl⟩

theorem accounts_call (callee : Value) (arguments : List Value) :
    Accounts (callEvents limit callee arguments w) w (call limit callee arguments k w) := by
  cases callee with
  | function c =>
    simp only [callEvents, call]
    split
    · exact ⟨rfl, rfl⟩
    · cases limit.filter (· ≤ w.depth) <;> exact ⟨rfl, rfl⟩
  | builtin b => exact accounts_builtin b arguments
  | _ => exact ⟨rfl, rfl⟩

theorem accounts_resume (result : Option Value) (p : Pending) :
    Accounts (resumeEvents (result.getD .null) p w) w (resume result p k w) := by
  cases p with
  | more b f => cases b <;> exact ⟨rfl, rfl⟩
  | item before after f => cases after <;> exact ⟨rfl, rfl⟩
  | entryKey before value after f =>
    simp only [resume]
    split <;> exact ⟨rfl, rfl⟩
  | entryValue before key after f => cases after <;> exact ⟨rfl, rfl⟩
  | assign name f =>
    cases h : w.store.resolve? f name <;>
      simp only [resumeEvents, resume, World.assign, Store.assign, h] <;> exact ⟨rfl, rfl⟩
  | choose b d f =>
    simp only [resume]
    split
    · exact ⟨rfl, rfl⟩
    · split <;> exact ⟨rfl, rfl⟩
  | iterate name body f =>
    simp only [resumeEvents, resume]
    cases result.getD .null with
    | array vs => exact accounts_pass name vs body .null
    | _ => exact ⟨rfl, rfl⟩
  | forPass name after body f before => exact accounts_pass name after body _
  | test c body f before =>
    simp only [resumeEvents, resume]
    split <;> exact ⟨rfl, rfl⟩
  | callee args f => cases args <;> exact ⟨rfl, rfl⟩
  | argument callee before after f => cases after <;> exact ⟨rfl, rfl⟩
  | _ => exact ⟨rfl, rfl⟩

end

/-- The events of a step are all that it does to the frames and to the output. -/
theorem step_events (limit : Option Nat) (m : Machine) :
    Accounts (m.events limit) m.world (m.step limit) := by
  obtain ⟨c, k, w⟩ := m
  cases c with
  | expr e f => exact accounts_evaluate e
  | stmt s f => cases s <;> exact ⟨rfl, rfl⟩
  | block b f => cases b <;> exact ⟨rfl, rfl⟩
  | apply callee arguments => exact accounts_call callee arguments
  | done result =>
    cases k with
    | nil => exact ⟨rfl, rfl⟩
    | cons p k => exact accounts_resume result p
  | raised s =>
    cases k with
    | nil => cases s <;> exact ⟨rfl, rfl⟩
    | cons p k =>
      cases p with
      | forPass name after body f before =>
        cases s with
        | cont => exact accounts_pass name after body before
        | _ => exact ⟨rfl, rfl⟩
      | _ => cases s <;> exact ⟨rfl, rfl⟩

/-! ## Signals are not values of parts -/

end Machine

def Value.IsSignal : Value → Prop
  | .signal _ => True
  | _ => False

theorem Machine.settle_of_not_isSignal {v : Value} (h : ¬v.IsSignal) :
    settle v = .done (some v) := by
  cases v with
  | signal s => exact absurd trivial h
  | _ => rfl

/-- What a part yields is no signal. -/
def Control.Settled : Control → Prop
  | .done (some v) => ¬v.IsSignal
  | _ => True

/-- The value that a loop keeps is no signal. -/
def Pending.Settled : Pending → Prop
  | .forPass _ _ _ _ result | .test _ _ _ result | .whilePass _ _ _ result => ¬result.IsSignal
  | _ => True

namespace Machine

def Settled (m : Machine) : Prop := m.control.Settled ∧ ∀ p ∈ m.stack, p.Settled

section

variable {limit : Option Nat} {c : Control} {f : FrameId} {p : Pending} {k : List Pending}
  {w : World} {result : Option Value} {v : Value}

theorem settled_push (hc : c.Settled) (hp : p.Settled) (hk : ∀ p ∈ k, p.Settled) :
    Settled ⟨c, p :: k, w⟩ :=
  ⟨hc, List.forall_mem_cons.2 ⟨hp, hk⟩⟩

/-- Letting a signal loose leaves no signal as a value. -/
theorem settled_settle (v : Value) : (settle v).Settled := by
  cases v <;> first | trivial | exact fun h => h

theorem settled_result (r : Except Fault Value) : (settleResult r).Settled := by
  cases r with
  | ok v => exact settled_settle v
  | error e => trivial

theorem not_isSignal_getD (h : (Control.done result).Settled) (hv : ¬v.IsSignal) :
    ¬(result.getD v).IsSignal := by
  cases result with
  | none => exact hv
  | some v => exact h

theorem settled_items (before : List Value) (after : List Expr) (hk : ∀ p ∈ k, p.Settled) :
    (items before after f k w).Settled := by
  cases after with
  | nil => exact ⟨fun h => h, hk⟩
  | cons e es => exact settled_push trivial trivial hk

theorem settled_entries (before : Entries Value) (after : List (Expr × Expr))
    (hk : ∀ p ∈ k, p.Settled) : (entries before after f k w).Settled := by
  cases after with
  | nil => exact ⟨fun h => h, hk⟩
  | cons e es => exact settled_push trivial trivial hk

theorem settled_arguments (callee : Value) (before : List Value) (after : List Expr)
    (hk : ∀ p ∈ k, p.Settled) : (arguments callee before after f k w).Settled := by
  cases after with
  | nil => exact ⟨trivial, hk⟩
  | cons e es => exact settled_push trivial trivial hk

theorem settled_pass (name : String) (after : List Value) (body : Block) (hv : ¬v.IsSignal)
    (hk : ∀ p ∈ k, p.Settled) : (forPass name after body f v k w).Settled := by
  cases after with
  | nil => exact ⟨hv, hk⟩
  | cons u us => exact settled_push trivial hv hk

theorem settled_evaluate (e : Expr) (hk : ∀ p ∈ k, p.Settled) : (evaluate e f k w).Settled := by
  cases e with
  | ident x =>
    simp only [evaluate]
    split
    · exact ⟨settled_settle _, hk⟩
    · split
      · exact ⟨fun h => h, hk⟩
      · exact ⟨trivial, hk⟩
  | array es => exact settled_items [] es hk
  | hash es => exact settled_entries [] es hk
  | integer | boolean | string | function => exact ⟨fun h => h, hk⟩
  | whileDo c b => exact settled_push trivial (fun h => h) hk
  | _ => exact settled_push trivial trivial hk

theorem settled_call (callee : Value) (arguments : List Value) (hk : ∀ p ∈ k, p.Settled) :
    (call limit callee arguments k w).Settled := by
  cases callee with
  | function c =>
    simp only [call]
    split
    · exact ⟨trivial, hk⟩
    · split
      · exact ⟨trivial, hk⟩
      · exact settled_push trivial trivial hk
  | builtin b => exact ⟨settled_result _, hk⟩
  | _ => exact ⟨trivial, hk⟩

theorem settled_resume (hr : (Control.done result).Settled) (hp : p.Settled)
    (hk : ∀ p ∈ k, p.Settled) : (resume result p k w).Settled := by
  have hv : ¬(result.getD .null).IsSignal := not_isSignal_getD hr fun h => h
  cases p with
  | more b f =>
    cases b with
    | nil => exact ⟨hr, hk⟩
    | cons s b => exact settled_push trivial trivial hk
  | define name f => exact ⟨trivial, hk⟩
  | ret => exact ⟨trivial, hk⟩
  | item before after f => exact settled_items _ after hk
  | entryKey before value after f =>
    simp only [resume]
    split
    · exact settled_push trivial trivial hk
    · exact ⟨trivial, hk⟩
  | entryValue before key after f => exact settled_entries _ after hk
  | unary op => exact ⟨settled_result _, hk⟩
  | binaryLeft op right f => exact settled_push trivial trivial hk
  | binaryRight left op => exact ⟨settled_result _, hk⟩
  | assign name f =>
    simp only [resume]
    split
    · exact ⟨hv, hk⟩
    · exact ⟨trivial, hk⟩
  | choose b d f =>
    simp only [resume]
    split
    · exact settled_push trivial trivial hk
    · split
      · exact settled_push trivial trivial hk
      · exact ⟨fun h => h, hk⟩
  | chosen => exact ⟨hv, hk⟩
  | iterate name body f =>
    simp only [resume]
    split
    · exact settled_pass name _ body (fun h => h) hk
    · exact ⟨trivial, hk⟩
  | forPass name after body f before =>
    exact settled_pass name after body (not_isSignal_getD hr hp) hk
  | test c body f before =>
    simp only [resume]
    split
    · exact settled_push trivial hp hk
    · exact ⟨hp, hk⟩
  | whilePass c body f before => exact settled_push trivial (not_isSignal_getD hr hp) hk
  | callee args f => exact settled_arguments _ [] args hk
  | argument callee before after f => exact settled_arguments callee _ after hk
  | call => exact ⟨hv, hk⟩
  | collection key f => exact settled_push trivial trivial hk
  | key collection => exact ⟨settled_result _, hk⟩

theorem settled_unwind (s : Signal) (hp : p.Settled) (hk : ∀ p ∈ k, p.Settled) :
    (unwind s p k w).Settled := by
  cases p with
  | forPass name after body f before =>
    cases s with
    | brk => exact ⟨fun h => h, hk⟩
    | cont => exact settled_pass name after body hp hk
    | _ => exact ⟨trivial, hk⟩
  | whilePass c body f before =>
    cases s with
    | brk => exact ⟨fun h => h, hk⟩
    | cont => exact settled_push trivial hp hk
    | _ => exact ⟨trivial, hk⟩
  | call =>
    cases s with
    | returned v => exact ⟨settled_settle v, hk⟩
    | _ => exact ⟨trivial, hk⟩
  | _ => exact ⟨trivial, hk⟩

end

theorem Settled.step {m : Machine} (limit : Option Nat) (h : m.Settled) :
    (m.step limit).Settled := by
  obtain ⟨c, k, w⟩ := m
  obtain ⟨hc, hk⟩ := h
  cases c with
  | expr e f => exact settled_evaluate e hk
  | stmt s f =>
    cases s with
    | define | ret => exact settled_push trivial trivial hk
    | _ => exact ⟨trivial, hk⟩
  | block b f =>
    cases b with
    | nil => exact ⟨trivial, hk⟩
    | cons s b => exact settled_push trivial trivial hk
  | apply callee arguments => exact settled_call callee arguments hk
  | done result =>
    cases k with
    | nil => exact ⟨hc, hk⟩
    | cons p k =>
      obtain ⟨hp, hk⟩ := List.forall_mem_cons.1 hk
      exact settled_resume hc hp hk
  | raised s =>
    cases k with
    | nil => exact ⟨hc, hk⟩
    | cons p k =>
      obtain ⟨hp, hk⟩ := List.forall_mem_cons.1 hk
      exact settled_unwind s hp hk

theorem Settled.after {m : Machine} (limit : Option Nat) (h : m.Settled) (n : Nat) :
    (m.after limit n).Settled := by
  induction n generalizing m with
  | zero => exact h
  | succ n ih => exact ih (h.step limit)

theorem settled_load (p : Program) (f : FrameId) (w : World) : (load p f w).Settled :=
  ⟨trivial, fun _ h => nomatch h⟩

/-! ## The way of an error -/

section

variable {limit : Option Nat} {e : Fault} {k : List Pending} {w : World}

/-- Nothing that waits catches an error; only the end of a call is noted. -/
theorem unwind_fault (p : Pending) :
    ∃ d, unwind (.fault e) p k w = ⟨.raised (.fault e), k, { w with depth := d }⟩ := by
  cases p <;> exact ⟨_, rfl⟩

theorem step_fault : ∃ d, step limit ⟨.raised (.fault e), k, w⟩ =
    ⟨.raised (.fault e), k.tail, { w with depth := d }⟩ := by
  cases k with
  | nil => exact ⟨w.depth, rfl⟩
  | cons p k => exact unwind_fault p

/-- An error drops what waits, one by one, and leaves the rest of the world alone. -/
theorem after_fault (n : Nat) : ∃ d, after limit n ⟨.raised (.fault e), k, w⟩ =
    ⟨.raised (.fault e), k.drop n, { w with depth := d }⟩ := by
  induction n generalizing k w with
  | zero => exact ⟨w.depth, rfl⟩
  | succ n ih =>
    obtain ⟨d, hs⟩ := @step_fault limit e k w
    obtain ⟨d', ha⟩ := ih (k := k.tail) (w := { w with depth := d })
    exact ⟨d', by rw [after, hs, ha, List.drop_tail]⟩

theorem events_fault : events limit ⟨.raised (.fault e), k, w⟩ = [] := by
  cases k with
  | nil => rfl
  | cons p k => cases p <;> rfl

theorem run_fault : ∃ d, run limit k.length ⟨.raised (.fault e), k, w⟩ =
    some (.error (.fault e), { w with depth := d }) := by
  obtain ⟨d, h⟩ := @after_fault limit e k w k.length
  rw [List.drop_length] at h
  exact ⟨d, run_eq_some.2 h⟩

end

/-- The outcome is the error, on its way or as a value. -/
def Outcome.IsFault (e : Fault) (o : Outcome) : Prop :=
  o = .error (.fault e) ∨ o = .ok (some (.signal (.fault e)))

/-- A part with an error for its outcome has raised it. -/
theorem eq_error_of_isFault {limit : Option Nat} {m : Machine} {n : Nat} {o : Outcome} {w : World}
    {e : Fault} (hm : m.Settled) (h : m.run limit n = some (o, w)) (ho : o.IsFault e) :
    o = .error (.fault e) := by
  obtain rfl | rfl := ho
  · rfl
  · have hs := hm.after limit n
    rw [run_eq_some.1 h] at hs
    exact absurd trivial hs.1

end Machine

theorem Program.run_unique {limit : Option Nat} {i j : Nat} {p : Program} {f : FrameId} {w : World}
    {r r' : Value × World} (h : p.run limit i f w = some r) (h' : p.run limit j f w = some r') :
    r = r' := by
  obtain ⟨q, hq, rfl⟩ := Option.map_eq_some_iff.1 h
  obtain ⟨q', hq', rfl⟩ := Option.map_eq_some_iff.1 h'
  rw [Machine.run_unique hq hq']

open Machine in
/-- An error is final. If the part that is going on at some point of a run comes to an error, then
from the moment when it does, there is no event any more, and the program ends with the error. -/
theorem Program.fault_final {limit : Option Nat} {p : Program} {f : FrameId} {w u : World}
    {i n : Nat} {m : Machine} {o : Outcome} {e : Fault}
    (hm : (load p f w).after limit i = m)
    (hpart : Machine.run limit n ⟨m.control, [], m.world⟩ = some (o, u)) (ho : o.IsFault e) :
    ∃ t, i ≤ t ∧ t ≤ i + n ∧
      (load p f w).after limit t = ⟨.raised (.fault e), m.stack, u⟩ ∧
      (∀ j, t ≤ j → ((load p f w).after limit j).events limit = []) ∧
      ∃ d, (∃ k, p.run limit k f w = some (.signal (.fault e), { u with depth := d })) ∧
        ∀ k r, p.run limit k f w = some r → r = (.signal (.fault e), { u with depth := d }) := by
  have hs : m.Settled := hm ▸ (settled_load p f w).after limit i
  have hs' : Settled ⟨m.control, [], m.world⟩ := ⟨hs.1, fun p h => nomatch h⟩
  obtain rfl := eq_error_of_isFault hs' hpart ho
  obtain ⟨j, hj, ha⟩ := after_onto m.stack hpart
  have ht : (load p f w).after limit (i + j) = ⟨.raised (.fault e), m.stack, u⟩ := by
    rw [after_add, hm]
    exact ha
  refine ⟨i + j, Nat.le_add_right i j, Nat.add_le_add_left hj i, ht, fun l hl => ?_, ?_⟩
  · obtain ⟨l, rfl⟩ := Nat.exists_eq_add_of_le hl
    obtain ⟨d, hd⟩ := @after_fault limit e m.stack u l
    rw [after_add, ht, hd]
    exact events_fault
  · obtain ⟨d, hd⟩ := @run_fault limit e m.stack u
    have hrun : p.run limit (i + j + m.stack.length) f w =
        some (.signal (.fault e), { u with depth := d }) := by
      rw [run_eq_some] at hd
      have hend : (load p f w).run limit (i + j + m.stack.length) =
          some (.error (.fault e), { u with depth := d }) := by
        rw [run_eq_some, after_add, ht, hd]
      rw [Program.run, hend]
      rfl
    exact ⟨d, ⟨_, hrun⟩, fun k r hr => Program.run_unique hr hrun⟩

/-- An array whose first item is an error and whose second one would print. -/
def brokenArray : Program :=
  [.expr (.array [.unary .negate (.boolean true), .call (.ident "puts") [.integer 1]])]

theorem Program.fault_final_brokenArray :
    let w := World.fresh fun _ => 0
    let e := Fault.badOperand .boolean
    ∃ t, t ≤ 6 ∧ (∀ j, t ≤ j → ((Machine.load brokenArray 0 w).after none j).events none = []) ∧
      ∃ d k, brokenArray.run none k 0 w = some (.signal (.fault e), { w with depth := d }) := by
  intro w e
  have hpart : Machine.run none 3 ⟨.expr (.unary .negate (.boolean true)) 0, [], w⟩ =
      some (.error (.fault e), w) := rfl
  have hm : (Machine.load brokenArray 0 w).after none 3 =
      ⟨.expr (.unary .negate (.boolean true)) 0,
        [.item [] [.call (.ident "puts") [.integer 1]] 0, .more [] 0], w⟩ := rfl
  obtain ⟨t, -, ht, -, he, d, ⟨k, hk⟩, -⟩ := Program.fault_final hm hpart (.inl rfl)
  exact ⟨t, ht, he, d, k, hk⟩

end MonkeyLang
