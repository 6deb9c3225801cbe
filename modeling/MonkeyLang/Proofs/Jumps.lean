/-
Where `break` and `continue` stand. In code in which each of them stands in the
body of a loop, with no function literal between, none gets out of the loops
around it: the loops that wait on the stack are those around the code that is
going on. So a program of such code never comes to the error that a jump is
outside of loops.
-/
import MonkeyLang.Proofs.Ordinary

namespace MonkeyLang

/-! ## Code -/

mutual

/-- Each `break` and `continue` is in the body of a loop within the expression, unless there is a
`loop` around it. The body of a function begins outside of loops. -/
def Expr.loopSafe (loop : Bool) : Expr → Bool
  | .ident _ | .integer _ | .boolean _ | .string _ => true
  | .array es => Expr.loopSafeList loop es
  | .hash es => Expr.loopSafeEntries loop es
  | .unary _ e => e.loopSafe loop
  | .binary l _ r => l.loopSafe loop && r.loopSafe loop
  | .assign _ e => e.loopSafe loop
  | .ifElse c b d => c.loopSafe loop && Stmt.loopSafeList loop b && Stmt.loopSafeElse loop d
  | .forIn _ e b => e.loopSafe loop && Stmt.loopSafeList true b
  | .whileDo c b => c.loopSafe loop && Stmt.loopSafeList true b
  | .function _ b => Stmt.loopSafeList false b
  | .call f es => f.loopSafe loop && Expr.loopSafeList loop es
  | .index c k => c.loopSafe loop && k.loopSafe loop

def Expr.loopSafeList (loop : Bool) : List Expr → Bool
  | [] => true
  | e :: es => e.loopSafe loop && Expr.loopSafeList loop es

def Expr.loopSafeEntries (loop : Bool) : List (Expr × Expr) → Bool
  | [] => true
  | (k, v) :: es => k.loopSafe loop && v.loopSafe loop && Expr.loopSafeEntries loop es

def Stmt.loopSafe (loop : Bool) : Stmt → Bool
  | .define _ e | .ret e | .expr e => e.loopSafe loop
  | .brk | .cont => loop

def Stmt.loopSafeList (loop : Bool) : List Stmt → Bool
  | [] => true
  | s :: ss => s.loopSafe loop && Stmt.loopSafeList loop ss

def Stmt.loopSafeElse (loop : Bool) : Option (List Stmt) → Bool
  | none => true
  | some b => Stmt.loopSafeList loop b

end

def Block.LoopSafe (loop : Bool) (b : Block) : Prop := ∀ s ∈ b, s.loopSafe loop

instance (loop : Bool) (b : Block) : Decidable (Block.LoopSafe loop b) :=
  inferInstanceAs (Decidable (∀ s ∈ b, s.loopSafe loop))

/-- Each `break` and `continue` of the program is in a loop of the function that it stands in. -/
def Program.LoopSafe (p : Program) : Prop := Block.LoopSafe false p

instance (p : Program) : Decidable p.LoopSafe :=
  inferInstanceAs (Decidable (Block.LoopSafe false p))

section

variable {loop : Bool} {e c k l r f : Expr} {es : List Expr} {b : Block}

theorem Expr.loopSafeList_iff : Expr.loopSafeList loop es ↔ ∀ e ∈ es, e.loopSafe loop := by
  induction es with
  | nil => simp [Expr.loopSafeList]
  | cons e es ih => rw [Expr.loopSafeList, Bool.and_eq_true, ih, List.forall_mem_cons]

theorem Expr.loopSafeEntries_iff {es : List (Expr × Expr)} : Expr.loopSafeEntries loop es ↔
    ∀ e ∈ es, e.1.loopSafe loop ∧ e.2.loopSafe loop := by
  induction es with
  | nil => simp [Expr.loopSafeEntries]
  | cons e es ih =>
    rw [Expr.loopSafeEntries, Bool.and_eq_true, Bool.and_eq_true, ih, List.forall_mem_cons]

theorem Block.loopSafe_iff : Stmt.loopSafeList loop b ↔ Block.LoopSafe loop b := by
  induction b with
  | nil => simp [Stmt.loopSafeList, Block.LoopSafe]
  | cons s b ih =>
    rw [Stmt.loopSafeList, Bool.and_eq_true, ih]
    exact (List.forall_mem_cons (p := fun t : Stmt => t.loopSafe loop = true)).symm

theorem Expr.loopSafe_ifElse {d : Option Block} (h : (Expr.ifElse c b d).loopSafe loop) :
    c.loopSafe loop ∧ Block.LoopSafe loop b ∧ ∀ a ∈ d, Block.LoopSafe loop a := by
  simp only [Expr.loopSafe, Bool.and_eq_true, Block.loopSafe_iff] at h
  obtain ⟨⟨hc, hb⟩, hd⟩ := h
  refine ⟨hc, hb, ?_⟩
  rintro a rfl
  exact Block.loopSafe_iff.1 hd

theorem Expr.loopSafe_forIn {x : String} (h : (Expr.forIn x e b).loopSafe loop) :
    e.loopSafe loop ∧ Block.LoopSafe true b := by
  simpa only [Expr.loopSafe, Bool.and_eq_true, Block.loopSafe_iff] using h

theorem Expr.loopSafe_whileDo (h : (Expr.whileDo c b).loopSafe loop) :
    c.loopSafe loop ∧ Block.LoopSafe true b := by
  simpa only [Expr.loopSafe, Bool.and_eq_true, Block.loopSafe_iff] using h

theorem Expr.loopSafe_call (h : (Expr.call f es).loopSafe loop) :
    f.loopSafe loop ∧ ∀ e ∈ es, e.loopSafe loop := by
  simpa only [Expr.loopSafe, Bool.and_eq_true, Expr.loopSafeList_iff] using h

end

/-! ## Functions -/

/-- Jumps stand in loops in the bodies of all functions, and no signals are kept. -/
def Law.loopSafe : Law :=
  { Law.ordinary with
    code := fun e => ∀ xs b, e = .function xs b → Block.LoopSafe false b
    text_literal := fun _ => trivial
    builtin_named := fun _ _ => trivial }

/-- The functions that the value is or that are within it have bodies in which jumps stand in
loops. -/
def Value.LoopSafe (v : Value) : Prop := ∀ c, .function c ∈ v.within → Block.LoopSafe false c.body

def World.LoopSafe (w : World) : Prop :=
  ∀ frame ∈ w.store.frames, ∀ slot ∈ frame.slots, slot.2.LoopSafe

mutual

/-- Every function literal within such code has a body in which jumps stand in loops. -/
theorem Expr.functions_loopSafe :
    ∀ {loop : Bool} (e : Expr), e.loopSafe loop → ∀ d ∈ e.within, Law.loopSafe.code d
  | _, .ident _, _ | _, .integer _, _ | _, .boolean _, _ | _, .string _, _ =>
    List.forall_mem_singleton.2 nofun
  | _, .array es, h => List.forall_mem_cons.2 ⟨nofun, Expr.functions_loopSafeList es h⟩
  | _, .hash es, h => List.forall_mem_cons.2 ⟨nofun, Expr.functions_loopSafeEntries es h⟩
  | _, .unary _ e, h | _, .assign _ e, h =>
    List.forall_mem_cons.2 ⟨nofun, Expr.functions_loopSafe e h⟩
  | _, .binary l _ r, h | _, .index l r, h => by
    obtain ⟨hl, hr⟩ := Bool.and_eq_true_iff.1 h
    refine List.forall_mem_cons.2 ⟨nofun, List.forall_mem_append.2 ⟨?_, ?_⟩⟩
    · exact Expr.functions_loopSafe l hl
    · exact Expr.functions_loopSafe r hr
  | _, .ifElse c b d, h => by
    obtain ⟨h, hd⟩ := Bool.and_eq_true_iff.1 h
    obtain ⟨hc, hb⟩ := Bool.and_eq_true_iff.1 h
    refine List.forall_mem_cons.2 ⟨nofun, List.forall_mem_append.2 ⟨?_, ?_⟩⟩
    · exact List.forall_mem_append.2
        ⟨Expr.functions_loopSafe c hc, Stmt.functions_loopSafeList b hb⟩
    · exact Stmt.functions_loopSafeElse d hd
  | _, .forIn _ e b, h | _, .whileDo e b, h => by
    obtain ⟨he, hb⟩ := Bool.and_eq_true_iff.1 h
    refine List.forall_mem_cons.2 ⟨nofun, List.forall_mem_append.2 ⟨?_, ?_⟩⟩
    · exact Expr.functions_loopSafe e he
    · exact Stmt.functions_loopSafeList b hb
  | _, .function xs b, h => by
    refine List.forall_mem_cons.2 ⟨?_, Stmt.functions_loopSafeList b h⟩
    intro ys c he
    obtain ⟨-, rfl⟩ := Expr.function.inj he
    exact Block.loopSafe_iff.1 h
  | _, .call f es, h => by
    obtain ⟨hf, hes⟩ := Bool.and_eq_true_iff.1 h
    refine List.forall_mem_cons.2 ⟨nofun, List.forall_mem_append.2 ⟨?_, ?_⟩⟩
    · exact Expr.functions_loopSafe f hf
    · exact Expr.functions_loopSafeList es hes

theorem Expr.functions_loopSafeList : ∀ {loop : Bool} (es : List Expr), Expr.loopSafeList loop es →
    ∀ d ∈ Expr.withinList es, Law.loopSafe.code d
  | _, [], _ => List.forall_mem_nil _
  | _, e :: es, h => by
    obtain ⟨he, hes⟩ := Bool.and_eq_true_iff.1 h
    exact List.forall_mem_append.2
      ⟨Expr.functions_loopSafe e he, Expr.functions_loopSafeList es hes⟩

theorem Expr.functions_loopSafeEntries : ∀ {loop : Bool} (es : List (Expr × Expr)),
    Expr.loopSafeEntries loop es → ∀ d ∈ Expr.withinEntries es, Law.loopSafe.code d
  | _, [], _ => List.forall_mem_nil _
  | _, (k, v) :: es, h => by
    obtain ⟨h, hes⟩ := Bool.and_eq_true_iff.1 h
    obtain ⟨hk, hv⟩ := Bool.and_eq_true_iff.1 h
    refine List.forall_mem_append.2 ⟨?_, Expr.functions_loopSafeEntries es hes⟩
    exact List.forall_mem_append.2 ⟨Expr.functions_loopSafe k hk, Expr.functions_loopSafe v hv⟩

theorem Stmt.functions_loopSafe :
    ∀ {loop : Bool} (s : Stmt), s.loopSafe loop → ∀ d ∈ s.within, Law.loopSafe.code d
  | _, .define _ e, h | _, .ret e, h | _, .expr e, h => Expr.functions_loopSafe e h
  | _, .brk, _ | _, .cont, _ => List.forall_mem_nil _

theorem Stmt.functions_loopSafeList : ∀ {loop : Bool} (b : List Stmt), Stmt.loopSafeList loop b →
    ∀ d ∈ Stmt.withinList b, Law.loopSafe.code d
  | _, [], _ => List.forall_mem_nil _
  | _, s :: b, h => by
    obtain ⟨hs, hb⟩ := Bool.and_eq_true_iff.1 h
    exact List.forall_mem_append.2 ⟨Stmt.functions_loopSafe s hs, Stmt.functions_loopSafeList b hb⟩

theorem Stmt.functions_loopSafeElse : ∀ {loop : Bool} (d : Option (List Stmt)),
    Stmt.loopSafeElse loop d → ∀ e ∈ Stmt.withinElse d, Law.loopSafe.code e
  | _, none, _ => List.forall_mem_nil _
  | _, some b, h => Stmt.functions_loopSafeList b h

end

section

variable {loop : Bool} {b : Block} {n : Nat} {v : Value} {w : World}

theorem Block.LoopSafe.obeys (h : Block.LoopSafe loop b) : Block.Obeys .loopSafe b :=
  fun s hs => Stmt.functions_loopSafe s (h s hs)

theorem Value.obeys_loopSafe : v.Obeys .loopSafe n ↔ v.Ordinary ∧ v.LoopSafe := by
  constructor
  · refine fun h => ⟨fun u hu hs => ?_, fun c hc => ?_⟩
    · cases u with
      | signal s => exact h _ hu
      | _ => exact hs
    · exact (h _ hc).1 _ (Expr.mem_within_self _) _ _ rfl
  · rintro ⟨hv, hc⟩ u hu
    cases u with
    | function c =>
      have hbody := hc c hu
      refine ⟨List.forall_mem_cons.2 ⟨?_, Block.obeys_iff.2 hbody.obeys⟩, trivial⟩
      intro xs b he
      obtain ⟨-, rfl⟩ := Expr.function.inj he
      exact hbody
    | signal s => exact hv _ hu trivial
    | _ => trivial

theorem World.obeys_loopSafe : w.Obeys .loopSafe ↔ w.Ordinary ∧ w.LoopSafe := by
  constructor
  · intro h
    have hslot : ∀ frame ∈ w.store.frames, ∀ slot ∈ frame.slots,
        slot.2.Ordinary ∧ slot.2.LoopSafe := by
      intro frame hframe slot hs
      obtain ⟨f, hf⟩ := Array.mem_iff_getElem?.1 hframe
      exact Value.obeys_loopSafe.1 (h.slot trivial hf hs)
    exact ⟨fun frame hf slot hs => (hslot frame hf slot hs).1,
      fun frame hf slot hs => (hslot frame hf slot hs).2⟩
  · rintro ⟨hw, hc⟩
    refine ⟨Nat.zero_le _, fun _ _ _ => trivial, fun _ hf hs => ?_⟩
    have hframe := Array.mem_of_getElem? hf
    exact Value.obeys_loopSafe.2 ⟨hw _ hframe _ hs, hc _ hframe _ hs⟩

end

/-! ## Errors -/

/-- An error that an operation can meet: it is no misplaced jump, and the host did not make it. -/
def Fault.IsPlain : Fault → Prop
  | .outsideLoop | .custom _ => False
  | _ => True

/-- The text has this first character. -/
def Begins (c : Char) (s : String) : Prop := ∃ cs, s.toList = c :: cs

theorem begins_ofList (c : Char) (cs : List Char) : Begins c (String.ofList (c :: cs)) :=
  ⟨cs, String.toList_ofList⟩

theorem Begins.join {c : Char} {s : String} (h : Begins c s) (ss : List String) :
    Begins c (String.join (s :: ss)) := by
  obtain ⟨cs, hs⟩ := h
  refine ⟨cs ++ (String.join ss).toList, ?_⟩
  rw [String.join_cons, String.toList_append, hs, List.cons_append]

/-- No other error has the words for a misplaced jump: they differ in the first letter. -/
theorem Fault.IsPlain.message_ne {e : Fault} (h : e.IsPlain) :
    e.message ≠ Fault.outsideLoop.message := by
  have hother : ∃ c, Begins c e.message ∧ c ≠ 'b' := by
    cases e with
    | outsideLoop | custom => exact h.elim
    | divisionByZero => exact ⟨_, begins_ofList _ _, by decide⟩
    | _ => exact ⟨_, (begins_ofList _ _).join _, by decide⟩
  obtain ⟨c, ⟨cs, hc⟩, hne⟩ := hother
  obtain ⟨ds, hd⟩ : Begins 'b' Fault.outsideLoop.message := begins_ofList _ _
  intro he
  rw [he, hd] at hc
  exact hne (List.cons.inj hc).1.symm

theorem BinaryOp.isPlain_refuse (op : BinaryOp) (l r : Value) : (op.refuse l r).IsPlain := by
  unfold BinaryOp.refuse
  split <;> trivial

theorem UnaryOp.isPlain_of_apply {op : UnaryOp} {v : Value} {e : Fault}
    (h : op.apply v = .error e) : e.IsPlain := by
  cases op with
  | not => cases h
  | negate => cases v <;> cases h <;> trivial

theorem BinaryOp.isPlain_of_apply {op : BinaryOp} {l r : Value} {e : Fault}
    (h : op.apply l r = .error e) : e.IsPlain := by
  unfold BinaryOp.apply at h
  split at h
  · cases op with
    | divide =>
      simp only [BinaryOp.onIntegers] at h
      split at h <;> cases h
      trivial
    | _ => cases h
  · split at h <;> cases h
    exact isPlain_refuse op _ _
  · split at h <;> cases h
    exact isPlain_refuse op _ _
  · cases h
    exact isPlain_refuse op _ _

theorem Value.isPlain_of_member {v k : Value} {e : Fault} (h : v.member k = .error e) :
    e.IsPlain := by
  unfold Value.member at h
  split at h
  · split at h <;> cases h
  · split at h <;> cases h
    trivial
  · cases h
    trivial

theorem Builtin.isPlain_of_call {b : Builtin} {vs : List Value} {w : World} {e : Fault}
    (h : (b.call vs w).1 = .error e) : e.IsPlain := by
  cases b <;> simp only [Builtin.call] at h <;> (repeat' split at h) <;> cases h <;> trivial

/-! ## Machines -/

/-- Of the function that is going on, a loop waits for the end of a pass. -/
def inLoop : List Pending → Bool
  | [] | .call :: _ => false
  | .forPass _ _ _ _ _ :: _ | .whilePass _ _ _ _ :: _ => true
  | _ :: k => inLoop k

/-- A jump in the code that waits is in a loop, be it one that waits further down. -/
def Pending.LoopSafe (loop : Bool) : Pending → Prop
  | .more b _ => Block.LoopSafe loop b
  | .item _ es _ | .callee es _ | .argument _ _ es _ => ∀ e ∈ es, e.loopSafe loop
  | .entryKey _ v es _ => v.loopSafe loop ∧ ∀ e ∈ es, e.1.loopSafe loop ∧ e.2.loopSafe loop
  | .entryValue _ _ es _ => ∀ e ∈ es, e.1.loopSafe loop ∧ e.2.loopSafe loop
  | .binaryLeft _ e _ | .collection e _ => e.loopSafe loop
  | .choose b d _ => Block.LoopSafe loop b ∧ ∀ a ∈ d, Block.LoopSafe loop a
  | .iterate _ b _ | .forPass _ _ b _ _ => Block.LoopSafe true b
  | .test c b _ _ | .whilePass c b _ _ => c.loopSafe loop ∧ Block.LoopSafe true b
  | _ => True

def StackSafe : List Pending → Prop
  | [] => True
  | p :: k => p.LoopSafe (inLoop k) ∧ StackSafe k

/-- A jump on its way has a loop to get to. -/
def Control.LoopSafe (loop : Bool) : Control → Prop
  | .expr e _ => e.loopSafe loop
  | .stmt s _ => s.loopSafe loop
  | .block b _ => Block.LoopSafe loop b
  | .raised .brk | .raised .cont => loop
  | .raised (.fault e) => e.IsPlain
  | _ => True

namespace Machine

structure Placed (m : Machine) : Prop where
  control : m.control.LoopSafe (inLoop m.stack)
  stack : StackSafe m.stack

section

variable {limit : Option Nat} {loop : Bool} {c : Control} {f : FrameId} {p : Pending}
  {k : List Pending} {w : World} {v : Value} {n : Nat}

theorem loopSafe_settle (h : v.Obeys .loopSafe n) : (settle v).LoopSafe loop := by
  cases v with
  | signal s => exact (h _ (Value.mem_within_self _)).elim
  | _ => trivial

theorem loopSafe_settleResult {r : Except Fault Value} (hv : ∀ v, r = .ok v → v.Obeys .loopSafe n)
    (he : ∀ e, r = .error e → e.IsPlain) : (settleResult r).LoopSafe loop := by
  cases r with
  | ok v => exact loopSafe_settle (hv v rfl)
  | error e => exact he e rfl

theorem placed_items (before : List Value) {after : List Expr}
    (h : ∀ e ∈ after, e.loopSafe (inLoop k)) (hk : StackSafe k) :
    (items before after f k w).Placed := by
  cases after with
  | nil => exact ⟨trivial, hk⟩
  | cons e es =>
    obtain ⟨he, hes⟩ := List.forall_mem_cons.1 h
    exact ⟨he, hes, hk⟩

theorem placed_entries (before : Entries Value) {after : List (Expr × Expr)}
    (h : ∀ e ∈ after, e.1.loopSafe (inLoop k) ∧ e.2.loopSafe (inLoop k)) (hk : StackSafe k) :
    (entries before after f k w).Placed := by
  cases after with
  | nil => exact ⟨trivial, hk⟩
  | cons e es =>
    obtain ⟨⟨hkey, hvalue⟩, hes⟩ := List.forall_mem_cons.1 h
    exact ⟨hkey, ⟨hvalue, hes⟩, hk⟩

theorem placed_arguments (callee : Value) (before : List Value) {after : List Expr}
    (h : ∀ e ∈ after, e.loopSafe (inLoop k)) (hk : StackSafe k) :
    (arguments callee before after f k w).Placed := by
  cases after with
  | nil => exact ⟨trivial, hk⟩
  | cons e es =>
    obtain ⟨he, hes⟩ := List.forall_mem_cons.1 h
    exact ⟨he, hes, hk⟩

/-- The body of a pass has the loop around it. -/
theorem placed_pass (x : String) (after : List Value) {body : Block} (result : Value)
    (h : Block.LoopSafe true body) (hk : StackSafe k) :
    (forPass x after body f result k w).Placed := by
  cases after with
  | nil => exact ⟨trivial, hk⟩
  | cons v vs => exact ⟨h, h, hk⟩

theorem placed_evaluate (hw : w.Obeys .loopSafe) {e : Expr} (he : e.loopSafe (inLoop k))
    (hk : StackSafe k) : (evaluate e f k w).Placed := by
  cases e with
  | ident x =>
    simp only [evaluate]
    split
    · rename_i v hv
      exact ⟨loopSafe_settle (hw.get? trivial hv), hk⟩
    · split <;> exact ⟨trivial, hk⟩
  | array es => exact placed_items [] (Expr.loopSafeList_iff.1 he) hk
  | hash es => exact placed_entries [] (Expr.loopSafeEntries_iff.1 he) hk
  | unary op e | assign x e => exact ⟨he, trivial, hk⟩
  | binary l op r | index l r =>
    obtain ⟨hl, hr⟩ := Bool.and_eq_true_iff.1 he
    exact ⟨hl, hr, hk⟩
  | ifElse c b d =>
    obtain ⟨hc, hb, hd⟩ := Expr.loopSafe_ifElse he
    exact ⟨hc, ⟨hb, hd⟩, hk⟩
  | forIn x e b =>
    obtain ⟨he, hb⟩ := Expr.loopSafe_forIn he
    exact ⟨he, hb, hk⟩
  | whileDo c b =>
    obtain ⟨hc, hb⟩ := Expr.loopSafe_whileDo he
    exact ⟨hc, ⟨hc, hb⟩, hk⟩
  | call g es =>
    obtain ⟨hg, hes⟩ := Expr.loopSafe_call he
    exact ⟨hg, hes, hk⟩
  | _ => exact ⟨trivial, hk⟩

theorem placed_execute {s : Stmt} (hs : s.loopSafe (inLoop k)) (hk : StackSafe k) :
    (execute s f k w).Placed := by
  cases s with
  | define | ret => exact ⟨hs, trivial, hk⟩
  | _ => exact ⟨hs, hk⟩

theorem placed_statements {b : Block} (hb : Block.LoopSafe (inLoop k) b) (hk : StackSafe k) :
    (statements b f k w).Placed := by
  cases b with
  | nil => exact ⟨trivial, hk⟩
  | cons s b =>
    obtain ⟨hs, hb⟩ := List.forall_mem_cons.1 hb
    exact ⟨hs, hb, hk⟩

/-- The body of a function has no loop around it, whatever loops the call is in. -/
theorem placed_call {callee : Value} {arguments : List Value} (hc : callee.Obeys .loopSafe n)
    (ha : ∀ v ∈ arguments, v.Obeys .loopSafe n) (hk : StackSafe k) :
    (call limit callee arguments k w).Placed := by
  cases callee with
  | function c =>
    have hbody : Block.LoopSafe false c.body := (Value.obeys_loopSafe.1 hc).2 c List.mem_cons_self
    simp only [call]
    split
    · exact ⟨trivial, hk⟩
    · split
      · exact ⟨trivial, hk⟩
      · exact ⟨hbody, trivial, hk⟩
  | builtin b =>
    refine ⟨loopSafe_settleResult (n := n) (fun v hv => ?_) (fun e he => ?_), hk⟩
    · exact Builtin.call_obeys ha hv
    · exact Builtin.isPlain_of_call he
  | _ => exact ⟨trivial, hk⟩

theorem placed_resume {result : Option Value} (hr : ∀ v ∈ result, v.Obeys .loopSafe n)
    (ho : p.Obeys .loopSafe n) (hp : p.LoopSafe (inLoop k)) (hk : StackSafe k) :
    (resume result p k w).Placed := by
  have hv : (result.getD .null).Obeys .loopSafe n := Value.obeys_getD hr Value.obeys_null
  cases p with
  | more b f =>
    cases b with
    | nil => exact ⟨trivial, hk⟩
    | cons s b =>
      obtain ⟨hs, hb⟩ := List.forall_mem_cons.1 hp
      exact ⟨hs, hb, hk⟩
  | item before after f => exact placed_items _ hp hk
  | entryKey before value after f =>
    obtain ⟨hvalue, hes⟩ := hp
    simp only [resume]
    split
    · exact ⟨hvalue, hes, hk⟩
    · exact ⟨trivial, hk⟩
  | entryValue before key after f => exact placed_entries _ hp hk
  | unary op =>
    refine ⟨loopSafe_settleResult (n := n) (fun v h => ?_) (fun e h => ?_), hk⟩
    · exact UnaryOp.apply_obeys h
    · exact UnaryOp.isPlain_of_apply h
  | binaryLeft op right f | collection right f => exact ⟨hp, trivial, hk⟩
  | binaryRight left op =>
    refine ⟨loopSafe_settleResult (n := n) (fun v h => ?_) (fun e h => ?_), hk⟩
    · exact BinaryOp.apply_obeys ho hv h
    · exact BinaryOp.isPlain_of_apply h
  | assign x f =>
    simp only [resume]
    split <;> exact ⟨trivial, hk⟩
  | choose b d f =>
    obtain ⟨hb, hd⟩ := hp
    simp only [resume]
    split
    · exact ⟨hb, trivial, hk⟩
    · split
      · exact ⟨hd _ rfl, trivial, hk⟩
      · exact ⟨trivial, hk⟩
  | iterate x body f =>
    simp only [resume]
    split
    · exact placed_pass x _ .null hp hk
    · exact ⟨trivial, hk⟩
  | forPass x after body f before => exact placed_pass x after _ hp hk
  | test c body f before =>
    obtain ⟨hc, hb⟩ := hp
    simp only [resume]
    split
    · exact ⟨hb, ⟨hc, hb⟩, hk⟩
    · exact ⟨trivial, hk⟩
  | whilePass c body f before => exact ⟨hp.1, hp, hk⟩
  | callee args f => exact placed_arguments _ [] hp hk
  | argument callee before after f => exact placed_arguments callee _ hp hk
  | key collection =>
    refine ⟨loopSafe_settleResult (n := n) (fun v h => ?_) (fun e h => ?_), hk⟩
    · exact Value.member_obeys ho h
    · exact Value.isPlain_of_member h
  | define | ret | chosen | call => exact ⟨trivial, hk⟩

/-- A loop catches the jumps on their way, and none is on its way where a call ends. -/
theorem placed_unwind {s : Signal} (ho : s.Obeys .loopSafe n)
    (hs : (Control.raised s).LoopSafe (inLoop (p :: k))) (hp : p.LoopSafe (inLoop k))
    (hk : StackSafe k) : (unwind s p k w).Placed := by
  cases p with
  | forPass x after body f before =>
    cases s with
    | brk | returned => exact ⟨trivial, hk⟩
    | cont => exact placed_pass x after before hp hk
    | fault e => exact ⟨hs, hk⟩
  | whilePass c body f before =>
    cases s with
    | brk | returned => exact ⟨trivial, hk⟩
    | cont => exact ⟨hp.1, hp, hk⟩
    | fault e => exact ⟨hs, hk⟩
  | call =>
    cases s with
    | returned v => exact ⟨loopSafe_settle ho, hk⟩
    | fault e => exact ⟨hs, hk⟩
    | brk | cont => cases hs
  | _ => cases s <;> exact ⟨hs, hk⟩

end

theorem Placed.step {m : Machine} (limit : Option Nat) (h : m.Placed) (ho : m.Obeys .loopSafe) :
    (m.step limit).Placed := by
  obtain ⟨c, k, w⟩ := m
  obtain ⟨hc, hk⟩ := h
  obtain ⟨hw, hoc, hok⟩ := ho
  cases c with
  | expr e f => exact placed_evaluate hw hc hk
  | stmt s f => exact placed_execute hc hk
  | block b f => exact placed_statements hc hk
  | apply callee arguments => exact placed_call hoc.1 hoc.2 hk
  | done result =>
    cases k with
    | nil => exact ⟨hc, hk⟩
    | cons p k => exact placed_resume hoc (hok p List.mem_cons_self) hk.1 hk.2
  | raised s =>
    cases k with
    | nil => exact ⟨hc, hk⟩
    | cons p k => exact placed_unwind hoc hc hk.1 hk.2

theorem Placed.after {m : Machine} (limit : Option Nat) (h : m.Placed) (ho : m.Obeys .loopSafe)
    (n : Nat) : (m.after limit n).Placed := by
  induction n generalizing m with
  | zero => exact h
  | succ n ih => exact ih (h.step limit ho) (ho.step limit)

end Machine

/-- In a world without signals, where jumps stand in loops in the bodies of all functions, a
program in which they do so raises no error at any time for a jump outside of loops, so it does not
come to that error. The functions that there are in the end are of the same kind. -/
theorem Program.jumps_find_loops {limit : Option Nat} {p : Program} {f : FrameId} {w : World}
    (hp : p.LoopSafe) (hw : w.Ordinary) (hf : w.LoopSafe) :
    (∀ i e, ((Machine.load p f w).after limit i).control = .raised (.fault e) →
      e.message ≠ Fault.outsideLoop.message) ∧
    ∀ n v u, p.run limit n f w = some (v, u) →
      (∀ e, v = .signal (.fault e) → e.message ≠ Fault.outsideLoop.message) ∧ u.LoopSafe := by
  have ho : Machine.Obeys .loopSafe (Machine.load p f w) :=
    ⟨World.obeys_loopSafe.2 ⟨hw, hf⟩, ⟨Block.LoopSafe.obeys hp, trivial⟩, List.forall_mem_nil _⟩
  have hm : (Machine.load p f w).Placed := ⟨hp, trivial⟩
  refine ⟨fun i e he => ?_, fun n v u h => ?_⟩
  · have hc := (hm.after limit ho i).control
    rw [he] at hc
    exact Fault.IsPlain.message_ne hc
  · obtain ⟨⟨o, u'⟩, hr, he⟩ := Option.map_eq_some_iff.1 h
    cases he
    obtain ⟨hu, hov⟩ := ho.of_run hr
    have hc := hm.after limit ho n
    rw [Machine.run_eq_some.1 hr] at hc
    refine ⟨fun e hv => ?_, (World.obeys_loopSafe.1 hu).2⟩
    have hnot {v : Value} (hv : v.Obeys .loopSafe u.size) : v ≠ .signal (.fault e) := by
      rintro rfl
      exact (Value.obeys_loopSafe.1 hv).1 _ (Value.mem_within_self _) trivial
    cases o with
    | ok result => exact absurd hv (hnot (Value.obeys_getD hov Value.obeys_null))
    | error s =>
      cases s with
      | fault e' =>
        obtain rfl : e' = e := Signal.fault.inj (Value.signal.inj hv)
        exact Fault.IsPlain.message_ne hc.control
      | returned v => exact absurd hv (hnot hov)
      | brk | cont => nomatch hc.control

/-- A `break` in the condition of a loop within a loop, and a call that jumps in a loop of its
own. -/
def hurdles : Program :=
  [.expr (.forIn "x" (.ident "xs")
    [.expr (.call (.ident "skip") []),
     .expr (.whileDo (.ifElse (.ident "x") [.brk] none) [.cont])])]

theorem Program.jumps_find_loops_hurdles :
    let skip : Value := .function ⟨0, [], [.expr (.forIn "y" (.array [.integer 1]) [.cont])], 0⟩
    let xs : Value := .array [.boolean false, .boolean true]
    let w := { World.fresh fun _ => 0 with store := ⟨#[⟨none, [("skip", skip), ("xs", xs)]⟩]⟩ }
    hurdles.LoopSafe ∧ w.Ordinary ∧ w.LoopSafe ∧
      ∃ v u, hurdles.run none 70 0 w = some (v, u) ∧ v.tag = .null ∧ u.LoopSafe := by
  intro skip xs w
  have hp : hurdles.LoopSafe := by decide
  have hw : w.Ordinary := by decide
  have hf : w.LoopSafe := by
    intro frame hframe slot hslot c hc
    obtain rfl : frame = ⟨none, [("skip", skip), ("xs", xs)]⟩ := by simpa [w] using hframe
    obtain rfl | rfl : slot = ("skip", skip) ∨ slot = ("xs", xs) := by simpa using hslot
    · obtain rfl : c = _ := by simpa [skip, Value.within] using hc
      decide
    · simp [xs, Value.within, Value.withinList] at hc
  have hrun : (hurdles.run none 70 0 w).map (·.1.tag) = some .null := by decide +kernel
  obtain ⟨⟨v, u⟩, hr, hv⟩ := Option.map_eq_some_iff.1 hrun
  exact ⟨hp, hw, hf, v, u, hr, hv, ((Program.jumps_find_loops hp hw hf).2 70 v u hr).2⟩

end MonkeyLang
