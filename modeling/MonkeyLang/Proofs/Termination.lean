/-
Programs without `while` come to an end, whatever their functions do. The limit
on calls bounds the recursion, and a `for` has no more passes than its array has
items when it begins. So the induction is on the number of calls that can still
begin, within that on the code, and within that on the items to come; that the
code of every function that may be called has no `while` is a law.
-/
import MonkeyLang.Proofs.Depth
import MonkeyLang.Proofs.Law
import MonkeyLang.Proofs.Series

namespace MonkeyLang

def Expr.isWhile : Expr → Bool
  | .whileDo _ _ => true
  | _ => false

/-- No `while` anywhere in the program, function literals included. -/
def Program.WhileFree (p : Program) : Prop := ∀ e ∈ Stmt.withinList p, e.isWhile = false

instance (p : Program) : Decidable p.WhileFree :=
  inferInstanceAs (Decidable (∀ e ∈ Stmt.withinList p, e.isWhile = false))

/-- No `while` in any code. -/
def Law.whileFree : Law :=
  { Law.free with
    code := fun e => e.isWhile = false
    text_literal := fun _ => trivial
    builtin_named := fun _ _ => trivial }

namespace Machine

/-! ## Coming to an end -/

def Halts (limit : Option Nat) (m : Machine) : Prop := ∃ n r, m.run limit n = some r

section

variable {limit : Option Nat} {m : Machine} {n : Nat} {w : World} {o : Outcome} {s : Signal}

theorem halts_of_outcome (h : m.outcome? = some o) : Halts limit m := ⟨0, _, run_of_outcome h 0⟩

theorem Halts.of_step (h : Halts limit (m.step limit)) : Halts limit m := by
  cases ho : m.outcome? with
  | some o => exact halts_of_outcome ho
  | none =>
    obtain ⟨n, r, hr⟩ := h
    exact ⟨n + 1, r, by rw [run_step ho, hr]⟩

theorem Halts.of_after (h : Halts limit (m.after limit n)) : Halts limit m := by
  induction n generalizing m with
  | zero => exact h
  | succ n ih => exact (ih h).of_step

theorem halts_done (result : Option Value) : Halts limit ⟨.done result, [], w⟩ :=
  halts_of_outcome (o := .ok result) rfl

theorem halts_raised (s : Signal) : Halts limit ⟨.raised s, [], w⟩ :=
  halts_of_outcome (o := .error s) rfl

theorem halts_settle (v : Value) : Halts limit ⟨settle v, [], w⟩ := by
  cases v with
  | signal s => exact halts_raised s
  | _ => exact halts_done _

theorem halts_settleResult (r : Except Fault Value) : Halts limit ⟨settleResult r, [], w⟩ := by
  cases r with
  | ok v => exact halts_settle v
  | error e => exact halts_raised _

end

/-! ## Parts that come to an end -/

/-- There is no `while` in the machine, and below its own calls there is room for at most `r`
calls. -/
structure Limited (L r : Nat) (m : Machine) : Prop where
  obeys : m.Obeys .whileFree
  room : ∃ d, m.Balanced d ∧ L ≤ d + r

/-- The part comes to an end wherever there is no `while` and room for at most `r` calls. -/
def Terminates (L r : Nat) (c : Control) : Prop :=
  ∀ w, Limited L r ⟨c, [], w⟩ → Halts (some L) ⟨c, [], w⟩

section

variable {L r : Nat} {m : Machine} {c : Control} {p : Pending} {f : FrameId} {w : World}

theorem Limited.step (h : m.Limited L r) : (m.step (some L)).Limited L r := by
  obtain ⟨d, hb, hd⟩ := h.room
  exact ⟨h.obeys.step _, d, hb.step _, hd⟩

theorem Limited.after (h : m.Limited L r) (n : Nat) : (m.after (some L) n).Limited L r := by
  induction n generalizing m with
  | zero => exact h
  | succ n ih => exact ih h.step

/-- What is waiting for the part is no call, so there is as much room within the part. -/
theorem Limited.part (h : Limited L r ⟨c, [p], w⟩) (hp : p.isCall = false) :
    Limited L r ⟨c, [], w⟩ := by
  obtain ⟨d, hb, hd⟩ := h.room
  have ha : active ⟨c, [p], w⟩ = 0 := List.countP_cons_of_neg (by simp [hp])
  refine ⟨⟨h.obeys.world, h.obeys.control, List.forall_mem_nil _⟩, d, ?_, hd⟩
  rw [Balanced, ha] at hb
  exact hb

/-- A part that comes to an end, and then what was waiting for it. -/
theorem halts_onto {k : List Pending} (hc : Halts (some L) ⟨c, [], w⟩)
    (hm : Limited L r ⟨c, k, w⟩)
    (hk : ∀ (o : Outcome) u, Limited L r ⟨o.control, k, u⟩ → Halts (some L) ⟨o.control, k, u⟩) :
    Halts (some L) ⟨c, k, w⟩ := by
  obtain ⟨n, ⟨o, u⟩, hr⟩ := hc
  obtain ⟨i, -, ha⟩ := after_onto k hr
  have ha : after (some L) i ⟨c, k, w⟩ = ⟨o.control, k, u⟩ := ha
  have hl := hm.after i
  rw [ha] at hl
  exact .of_after (n := i) (ha ▸ hk o u hl)

/-- Most of what waits for a value catches no signal, and only goes on with the value. -/
theorem halts_then (hc : Terminates L r c) (hm : Limited L r ⟨c, [p], w⟩) (hp : p.isCall = false)
    (hs : ∀ s u, unwind s p [] u = ⟨.raised s, [], u⟩)
    (hr : ∀ result u, Limited L r (resume result p [] u) → Halts (some L) (resume result p [] u)) :
    Halts (some L) ⟨c, [p], w⟩ := by
  refine halts_onto (hc w (hm.part hp)) hm fun o u hl => .of_step ?_
  have hl := hl.step
  cases o with
  | ok result => exact hr result u hl
  | error s =>
    have he : step (some L) ⟨.raised s, [p], u⟩ = ⟨.raised s, [], u⟩ := hs s u
    exact he ▸ halts_raised s

/-! ### Lists of parts -/

theorem halts_items {after : List Expr} (hes : ∀ e ∈ after, Terminates L r (.expr e f))
    (before : List Value) (hm : Limited L r (items before after f [] w)) :
    Halts (some L) (items before after f [] w) := by
  induction after generalizing before w with
  | nil => exact halts_done _
  | cons e es ih =>
    obtain ⟨he, hes⟩ := List.forall_mem_cons.1 hes
    exact halts_then he hm rfl (fun _ _ => rfl) fun result u hl => ih hes _ hl

theorem halts_arguments (hcalls : ∀ callee arguments, Terminates L r (.apply callee arguments))
    {callee : Value} {after : List Expr} (hes : ∀ e ∈ after, Terminates L r (.expr e f))
    (before : List Value) (hm : Limited L r (arguments callee before after f [] w)) :
    Halts (some L) (arguments callee before after f [] w) := by
  induction after generalizing before w with
  | nil => exact hcalls _ _ _ hm
  | cons e es ih =>
    obtain ⟨he, hes⟩ := List.forall_mem_cons.1 hes
    exact halts_then he hm rfl (fun _ _ => rfl) fun result u hl => ih hes _ hl

theorem halts_entries {after : List (Expr × Expr)}
    (hes : ∀ e ∈ after, Terminates L r (.expr e.1 f) ∧ Terminates L r (.expr e.2 f))
    (before : Entries Value) (hm : Limited L r (entries before after f [] w)) :
    Halts (some L) (entries before after f [] w) := by
  induction after generalizing before w with
  | nil => exact halts_done _
  | cons e es ih =>
    obtain ⟨⟨hkey, hvalue⟩, hes⟩ := List.forall_mem_cons.1 hes
    refine halts_then hkey hm rfl (fun _ _ => rfl) fun result u hl => ?_
    cases hk : (result.getD .null).key? with
    | some key =>
      simp only [resume, hk] at hl ⊢
      exact halts_then hvalue hl rfl (fun _ _ => rfl) fun result u hl => ih hes _ hl
    | none =>
      simp only [resume, hk]
      exact halts_raised _

theorem terminates_block {b : Block} (hb : ∀ s ∈ b, Terminates L r (.stmt s f)) :
    Terminates L r (.block b f) := by
  intro w hm
  refine .of_step ?_
  have hm := hm.step
  -- After the first statement the rest is waiting, one statement at a time.
  have hmore : ∀ (b : Block) (s : Stmt) (w : World), Terminates L r (.stmt s f) →
      (∀ s ∈ b, Terminates L r (.stmt s f)) → Limited L r ⟨.stmt s f, [.more b f], w⟩ →
      Halts (some L) ⟨.stmt s f, [.more b f], w⟩ := by
    intro b
    induction b with
    | nil => exact fun s w hs _ hm => halts_then hs hm rfl (fun _ _ => rfl) fun _ _ _ => halts_done _
    | cons t b ih =>
      intro s w hs hb hm
      obtain ⟨ht, hb⟩ := List.forall_mem_cons.1 hb
      exact halts_then hs hm rfl (fun _ _ => rfl) fun result u hl => ih t u ht hb hl
  cases b with
  | nil => exact halts_done none
  | cons s b =>
    obtain ⟨hs, hb⟩ := List.forall_mem_cons.1 hb
    exact hmore b s w hs hb hm

/-- The items to come become fewer with each pass. -/
theorem halts_pass {x : String} {body : Block} (hb : ∀ g, Terminates L r (.block body g))
    (vs : List Value) (result : Value) (hm : Limited L r (forPass x vs body f result [] w)) :
    Halts (some L) (forPass x vs body f result [] w) := by
  induction vs generalizing result w with
  | nil => exact halts_done _
  | cons v vs ih =>
    refine halts_onto (hb _ _ (hm.part rfl)) hm fun o u hl => .of_step ?_
    have hl := hl.step
    cases o with
    | ok result => exact ih _ hl
    | error s =>
      cases s with
      | cont => exact ih _ hl
      | brk => exact halts_done _
      | fault | returned => exact halts_raised _

/-! ### Expressions -/

section

variable {e c k l g : Expr} {b : Block}

theorem terminates_unary {op : UnaryOp} (he : Terminates L r (.expr e f)) :
    Terminates L r (.expr (.unary op e) f) := fun _ hm =>
  .of_step (halts_then he hm.step rfl (fun _ _ => rfl) fun _ _ _ => halts_settleResult _)

theorem terminates_binary {op : BinaryOp} (hl : Terminates L r (.expr l f))
    (he : Terminates L r (.expr e f)) : Terminates L r (.expr (.binary l op e) f) := by
  intro w hm
  refine .of_step (halts_then hl hm.step rfl (fun _ _ => rfl) fun v u hm => ?_)
  exact halts_then he hm rfl (fun _ _ => rfl) fun _ _ _ => halts_settleResult _

theorem terminates_assign {x : String} (he : Terminates L r (.expr e f)) :
    Terminates L r (.expr (.assign x e) f) := by
  intro w hm
  refine .of_step (halts_then he hm.step rfl (fun _ _ => rfl) fun v u _ => ?_)
  simp only [resume]
  split
  · exact halts_done _
  · exact halts_raised _

/-- The chosen block of an `if` is the last thing to do. -/
theorem halts_chosen (hb : Terminates L r (.block b f)) (hm : Limited L r ⟨.block b f, [.chosen], w⟩) :
    Halts (some L) ⟨.block b f, [.chosen], w⟩ :=
  halts_then hb hm rfl (fun _ _ => rfl) fun _ _ _ => halts_done _

theorem terminates_ifElse {d : Option Block} (hc : Terminates L r (.expr c f))
    (hb : Terminates L r (.block b f)) (hd : ∀ a ∈ d, Terminates L r (.block a f)) :
    Terminates L r (.expr (.ifElse c b d) f) := by
  intro w hm
  refine .of_step (halts_then hc hm.step rfl (fun _ _ => rfl) fun v u hm => ?_)
  by_cases ht : (v.getD .null).isTruthy
  · simp only [resume, ht, if_true] at hm ⊢
    exact halts_chosen hb hm
  · cases d with
    | none =>
      simp only [resume, ht]
      exact halts_done _
    | some a =>
      simp only [resume, ht] at hm ⊢
      exact halts_chosen (hd a rfl) hm

theorem terminates_forIn {x : String} (he : Terminates L r (.expr e f))
    (hb : ∀ g, Terminates L r (.block b g)) : Terminates L r (.expr (.forIn x e b) f) := by
  intro w hm
  refine .of_step (halts_then he hm.step rfl (fun _ _ => rfl) fun v u hm => ?_)
  cases hv : v.getD .null with
  | array vs =>
    simp only [resume, hv] at hm ⊢
    exact halts_pass hb vs .null hm
  | _ =>
    simp only [resume, hv]
    exact halts_raised _

theorem terminates_index (hc : Terminates L r (.expr c f)) (hk : Terminates L r (.expr k f)) :
    Terminates L r (.expr (.index c k) f) := by
  intro w hm
  refine .of_step (halts_then hc hm.step rfl (fun _ _ => rfl) fun v u hm => ?_)
  exact halts_then hk hm rfl (fun _ _ => rfl) fun _ _ _ => halts_settleResult _

theorem terminates_array {es : List Expr} (hes : ∀ e ∈ es, Terminates L r (.expr e f)) :
    Terminates L r (.expr (.array es) f) := fun _ hm => .of_step (halts_items hes [] hm.step)

theorem terminates_hash {es : List (Expr × Expr)}
    (hes : ∀ e ∈ es, Terminates L r (.expr e.1 f) ∧ Terminates L r (.expr e.2 f)) :
    Terminates L r (.expr (.hash es) f) := fun _ hm => .of_step (halts_entries hes [] hm.step)

theorem terminates_call (hcalls : ∀ callee arguments, Terminates L r (.apply callee arguments))
    {es : List Expr} (hg : Terminates L r (.expr g f)) (hes : ∀ e ∈ es, Terminates L r (.expr e f)) :
    Terminates L r (.expr (.call g es) f) := by
  intro w hm
  refine .of_step (halts_then hg hm.step rfl (fun _ _ => rfl) fun v u hm => ?_)
  exact halts_arguments hcalls hes [] hm

theorem terminates_ident (x : String) : Terminates L r (.expr (.ident x) f) := by
  intro w hm
  refine .of_step ?_
  simp only [step, evaluate]
  split
  · exact halts_settle _
  · split
    · exact halts_done _
    · exact halts_raised _

end

mutual

theorem terminates_expr (hcalls : ∀ callee arguments, Terminates L r (.apply callee arguments)) :
    ∀ (e : Expr) (f : FrameId), Terminates L r (.expr e f)
  | .ident x, _ => terminates_ident x
  | .integer _, _ | .boolean _, _ | .string _, _ | .function _ _, _ =>
    fun _ _ => .of_step (halts_done _)
  | .array es, f => terminates_array fun e he => terminates_exprs hcalls es e he f
  | .hash es, f => terminates_hash fun e he => terminates_pairs hcalls es e he f
  | .unary _ e, f => terminates_unary (terminates_expr hcalls e f)
  | .binary l _ e, f => terminates_binary (terminates_expr hcalls l f) (terminates_expr hcalls e f)
  | .assign _ e, f => terminates_assign (terminates_expr hcalls e f)
  | .ifElse c b none, f =>
    terminates_ifElse (terminates_expr hcalls c f)
      (terminates_block fun s hs => terminates_stmts hcalls b s hs f) (fun _ h => nomatch h)
  | .ifElse c b (some d), f =>
    terminates_ifElse (terminates_expr hcalls c f)
      (terminates_block fun s hs => terminates_stmts hcalls b s hs f)
      fun _ ha => Option.mem_some.1 ha ▸
        terminates_block fun s hs => terminates_stmts hcalls d s hs f
  | .forIn _ e b, f =>
    terminates_forIn (terminates_expr hcalls e f) fun g =>
      terminates_block fun s hs => terminates_stmts hcalls b s hs g
  | .whileDo c b, _ => fun _ hm => nomatch hm.obeys.control.1 _ (Expr.mem_within_self (.whileDo c b))
  | .call g es, f =>
    terminates_call hcalls (terminates_expr hcalls g f) fun e he =>
      terminates_exprs hcalls es e he f
  | .index c k, f => terminates_index (terminates_expr hcalls c f) (terminates_expr hcalls k f)

theorem terminates_exprs
    (hcalls : ∀ callee arguments, Terminates L r (.apply callee arguments)) :
    ∀ (es : List Expr), ∀ e ∈ es, ∀ f, Terminates L r (.expr e f)
  | [] => fun _ h => nomatch h
  | e :: es => List.forall_mem_cons.2 ⟨terminates_expr hcalls e, terminates_exprs hcalls es⟩

theorem terminates_pairs
    (hcalls : ∀ callee arguments, Terminates L r (.apply callee arguments)) :
    ∀ (es : List (Expr × Expr)), ∀ e ∈ es, ∀ f,
      Terminates L r (.expr e.1 f) ∧ Terminates L r (.expr e.2 f)
  | [] => fun _ h => nomatch h
  | (k, v) :: es => List.forall_mem_cons.2
    ⟨fun f => ⟨terminates_expr hcalls k f, terminates_expr hcalls v f⟩, terminates_pairs hcalls es⟩

theorem terminates_stmt (hcalls : ∀ callee arguments, Terminates L r (.apply callee arguments)) :
    ∀ (s : Stmt) (f : FrameId), Terminates L r (.stmt s f)
  | .define _ e, f => fun _ hm =>
    .of_step (halts_then (terminates_expr hcalls e f) hm.step rfl (fun _ _ => rfl)
      fun _ _ _ => halts_done _)
  | .ret e, f => fun _ hm =>
    .of_step (halts_then (terminates_expr hcalls e f) hm.step rfl (fun _ _ => rfl)
      fun _ _ _ => halts_raised _)
  | .expr e, f => fun w hm => .of_step (terminates_expr hcalls e f w hm.step)
  | .brk, _ | .cont, _ => fun _ _ => .of_step (halts_raised _)

theorem terminates_stmts
    (hcalls : ∀ callee arguments, Terminates L r (.apply callee arguments)) :
    ∀ (b : List Stmt), ∀ s ∈ b, ∀ f, Terminates L r (.stmt s f)
  | [] => fun _ h => nomatch h
  | s :: b => List.forall_mem_cons.2 ⟨terminates_stmt hcalls s, terminates_stmts hcalls b⟩

end

/-! ### Calls -/

/-- The end of a body is the end of the call. -/
theorem halts_end (o : Outcome) : Halts (some L) ⟨o.control, [.call], w⟩ := by
  refine .of_step ?_
  cases o with
  | ok result => exact halts_done _
  | error s =>
    cases s with
    | returned v => exact halts_settle v
    | _ => exact halts_raised _

/-- Where a call begins, there is room for one call less within it. -/
theorem Limited.body {b : Block} {s : Nat} (hm : Limited L (s + 1) ⟨.block b f, [.call], w⟩) :
    Limited L s ⟨.block b f, [], w⟩ := by
  obtain ⟨d, hb, hd⟩ := hm.room
  have hdepth : w.depth = d + 1 := hb
  refine ⟨⟨hm.obeys.world, hm.obeys.control, List.forall_mem_nil _⟩, d + 1, hdepth, ?_⟩
  omega

theorem terminates_apply (hbody : ∀ s, r = s + 1 → ∀ b f, Terminates L s (.block b f))
    (callee : Value) (arguments : List Value) : Terminates L r (.apply callee arguments) := by
  intro w hm
  refine .of_step ?_
  have hstep := hm.step
  cases callee with
  | builtin b => exact halts_settleResult _
  | function c =>
    by_cases hlen : arguments.length < c.parameters.length
    · simp only [step, call, if_pos hlen]
      exact halts_raised _
    cases hroom : (some L).filter (· ≤ w.depth) with
    | some n =>
      simp only [step, call, if_neg hlen, hroom]
      exact halts_raised _
    | none =>
      -- A call that begins is not the first one without room.
      obtain ⟨d, hb, hd⟩ := hm.room
      have hdepth : w.depth = d := hb
      have hlt : w.depth < L := by simpa using hroom
      obtain ⟨s, rfl⟩ : ∃ s, r = s + 1 := ⟨r - 1, by omega⟩
      simp only [step, call, if_neg hlen, hroom] at hstep ⊢
      exact halts_onto (hbody s rfl _ _ _ hstep.body) hstep fun o u _ => halts_end o
  | _ => exact halts_raised _

/-- The induction on the room for calls. -/
theorem terminates (b : Block) (f : FrameId) : Terminates L r (.block b f) := by
  induction r generalizing b f with
  | zero =>
    have hcalls := terminates_apply (L := L) (r := 0) fun s hs => nomatch hs
    exact terminates_block fun s _ => terminates_stmt hcalls s f
  | succ r ih =>
    have hcalls := terminates_apply (L := L) (r := r + 1) fun s hs => Nat.succ.inj hs ▸ ih
    exact terminates_block fun s _ => terminates_stmt hcalls s f

end

end Machine

/-! ## Programs -/

theorem Program.obeys_whileFree {p : Program} : Block.Obeys .whileFree p ↔ p.WhileFree :=
  Block.obeys_iff.symm

namespace Session

variable {s : Session} {p : Program} {ps : List Program}

/-- Without `while` in it and in the functions there are, a program comes to a value. -/
theorem exists_runProgram (hs : s.Obeys .whileFree) (hp : p.WhileFree) :
    ∃ n r, s.runProgram n p = some r := by
  have hm : Machine.Limited callLimit callLimit (.load p s.globals s.world) :=
    ⟨⟨hs.world, ⟨Program.obeys_whileFree.2 hp, hs.globals⟩, List.forall_mem_nil _⟩, s.world.depth,
      rfl, Nat.le_add_left _ _⟩
  obtain ⟨n, r, hr⟩ : ∃ n r, (Machine.load p s.globals s.world).run (some callLimit) n = some r :=
    Machine.terminates p s.globals s.world hm
  exact ⟨n, (r.1.value, { s with world := r.2 }), by rw [runProgram, Program.run, hr]; rfl⟩

theorem exists_runAll (hs : s.Obeys .whileFree) (hps : ∀ p ∈ ps, p.WhileFree) :
    ∃ n vs t, runAll (fun p s => runProgram n p s) ps s = some (vs, t) ∧ vs.length = ps.length := by
  induction ps generalizing s with
  | nil => exact ⟨0, [], s, rfl, rfl⟩
  | cons p ps ih =>
    obtain ⟨hp, hps⟩ := List.forall_mem_cons.1 hps
    obtain ⟨n, ⟨v, t⟩, hr⟩ := exists_runProgram hs hp
    obtain ⟨ht, -⟩ := hs.of_run (Program.obeys_whileFree.2 hp) hr
    obtain ⟨k, vs, u, hall, hlen⟩ := ih ht hps
    have hmono : ∀ {i p s r}, i ≤ max n k → runProgram i p s = some r →
        runProgram (max n k) p s = some r := fun hi h => runProgram_mono h hi
    have hall := runAll_mono (n := k) (fun p s r => hmono (Nat.le_max_right n k)) hall
    refine ⟨max n k, v :: vs, u, ?_, congrArg (· + 1) hlen⟩
    rw [runAll_cons (hmono (Nat.le_max_left n k) hr), hall, Option.map_some]

end Session

/-- Two functions that call each other for ever, one of them out of an array. -/
def runaway : Program :=
  [.define "ping" (.function ["n"]
    [.ret (.call (.index (.ident "fs") (.integer 0)) [.ident "n"])]),
   .define "fs" (.array [.function ["n"] [.expr (.call (.ident "ping") [.ident "n"])]])]

/-- Calls them once for each item of an array. -/
def runaways : Program :=
  [.expr (.forIn "x" (.call (.ident "range") [.integer 3])
    [.expr (.call (.ident "ping") [.ident "x"])])]

end MonkeyLang
