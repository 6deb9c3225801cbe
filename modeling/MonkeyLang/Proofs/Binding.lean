/-
What an evaluation does to the frames that there are. It binds new names only in
the frame in which its code stands, and only by definitions outside of the
bodies of loops and functions, since such a body has frames of its own. Apart
from these names it changes a variable only by an assignment to it. The
invariant says of all code that waits in which frame it stands: in the frame
where the evaluation began, with its definitions among those of the code, or in
a new one.
-/
import MonkeyLang.Proofs.Faults
import MonkeyLang.Proofs.Law

namespace MonkeyLang

/-! ## Names -/

mutual

/-- The names of the definitions in the expression, apart from the bodies of loops and functions in
it. -/
def Expr.lets : Expr → List String
  | .ident _ | .integer _ | .boolean _ | .string _ | .function _ _ => []
  | .array es => Expr.letsList es
  | .hash es => Expr.letsEntries es
  | .unary _ e | .assign _ e => e.lets
  | .binary l _ r | .index l r => l.lets ++ r.lets
  | .ifElse c b d => c.lets ++ (Stmt.letsList b ++ Stmt.letsElse d)
  | .forIn _ e _ | .whileDo e _ => e.lets
  | .call f es => f.lets ++ Expr.letsList es

def Expr.letsList : List Expr → List String
  | [] => []
  | e :: es => e.lets ++ Expr.letsList es

def Expr.letsEntries : List (Expr × Expr) → List String
  | [] => []
  | (k, v) :: es => k.lets ++ (v.lets ++ Expr.letsEntries es)

def Stmt.lets : Stmt → List String
  | .define x e => x :: e.lets
  | .ret e | .expr e => e.lets
  | .brk | .cont => []

/-- The names of the definitions in a block. -/
def Stmt.letsList : List Stmt → List String
  | [] => []
  | s :: ss => s.lets ++ Stmt.letsList ss

def Stmt.letsElse : Option (List Stmt) → List String
  | none => []
  | some b => Stmt.letsList b

end

/-- The frame has a slot for the name. -/
def Frame.Binds (frame : Frame) (x : String) : Prop := (frame.slots.get? x).isSome

instance (frame : Frame) (x : String) : Decidable (frame.Binds x) :=
  inferInstanceAs (Decidable (_ = true))

namespace Control

/-- It is code, and this is the frame in which it stands. -/
def StandsIn (f : FrameId) : Control → Prop
  | .expr _ g | .stmt _ g | .block _ g => g = f
  | .apply _ _ | .done _ | .raised _ => False

/-- The names of the definitions in the code. -/
def lets : Control → List String
  | .expr e _ => e.lets
  | .stmt s _ => s.lets
  | .block b _ => Stmt.letsList b
  | .apply _ _ | .done _ | .raised _ => []

/-- The expressions within the code. -/
def within : Control → List Expr
  | .expr e _ => e.within
  | .stmt s _ => s.within
  | .block b _ => Stmt.withinList b
  | .apply _ _ | .done _ | .raised _ => []

end Control

/-! ## Scopes -/

/-- What an evaluation may do. -/
structure Scope where
  /-- From so many frames on, they are new. -/
  base : Nat
  /-- The frame in which the evaluation began. -/
  home : FrameId
  /-- The names that it may bind there. -/
  lets : List String
  /-- The names that it may assign to. -/
  assigns : String → Prop

/-- In this frame these names may be bound. -/
def Scope.Allows (S : Scope) (g : FrameId) (xs : List String) : Prop :=
  (g = S.home ∧ ∀ x ∈ xs, x ∈ S.lets) ∨ S.base ≤ g

/-- The frame has gained no names but those that may be bound in it, has lost none, and of the
others it holds the same value, unless they may be assigned to. -/
structure Frame.Becomes (S : Scope) (g : FrameId) (old new : Frame) : Prop where
  parent : new.parent = old.parent
  kept {x : String} : old.Binds x → new.Binds x
  gained {x : String} : new.Binds x → old.Binds x ∨ g = S.home ∧ x ∈ S.lets
  value {x : String} : ¬S.assigns x → ¬(g = S.home ∧ x ∈ S.lets) →
    new.slots.get? x = old.slots.get? x

/-- This became of the frames that are not new. -/
def World.Becomes (S : Scope) (w u : World) : Prop :=
  ∀ g old, g < S.base → w.store.frames[g]? = some old →
    ∃ new, u.store.frames[g]? = some new ∧ Frame.Becomes S g old new

section

variable {S : Scope} {g : FrameId} {x : String} {xs ys : List String} {v : Value} {old new : Frame}
  {w u u' : World}

theorem Scope.allows_append : S.Allows g (xs ++ ys) ↔ S.Allows g xs ∧ S.Allows g ys := by
  simp only [Scope.Allows, List.forall_mem_append]
  constructor
  · rintro (⟨hg, hxs, hys⟩ | hg)
    · exact ⟨.inl ⟨hg, hxs⟩, .inl ⟨hg, hys⟩⟩
    · exact ⟨.inr hg, .inr hg⟩
  · rintro ⟨⟨hg, hxs⟩ | hg, hys⟩
    · exact hys.imp (fun hys => ⟨hg, hxs, hys.2⟩) id
    · exact .inr hg

theorem Scope.allows_cons : S.Allows g (x :: xs) ↔ S.Allows g [x] ∧ S.Allows g xs :=
  @Scope.allows_append S g [x] xs

theorem Frame.Becomes.refl (frame : Frame) : Frame.Becomes S g frame frame :=
  ⟨rfl, id, .inl, fun _ _ => rfl⟩

theorem World.Becomes.refl (w : World) : World.Becomes S w w :=
  fun _ _ _ hg => ⟨_, hg, .refl _⟩

theorem World.Becomes.trans (h : World.Becomes S w u) (h' : World.Becomes S u u') :
    World.Becomes S w u' := by
  intro g old hlt hg
  obtain ⟨mid, hmid, hold⟩ := h g old hlt hg
  obtain ⟨new, hnew, hmid⟩ := h' g mid hlt hmid
  refine ⟨new, hnew, hmid.parent.trans hold.parent, fun hx => hmid.kept (hold.kept hx),
    fun hx => ?_, fun ha hl => (hmid.value ha hl).trans (hold.value ha hl)⟩
  rcases hmid.gained hx with hx | hx
  · exact hold.gained hx
  · exact .inr hx

/-- A slot is added or changed. -/
theorem Frame.becomes_insert
    (hx : (g = S.home ∧ x ∈ S.lets) ∨ S.assigns x ∧ old.Binds x) :
    Frame.Becomes S g old { old with slots := old.slots.insert x v } := by
  have hother {y : String} (hy : y ≠ x) :
      (Slots.insert x v old.slots).get? y = old.slots.get? y := Slots.get?_insert_other _ v hy
  refine ⟨rfl, fun {y} hy => ?_, fun {y} hy => ?_, fun {y} ha hl => ?_⟩
  · by_cases hyx : y = x
    · simp [Frame.Binds, hyx, Slots.get?_insert_self]
    · rw [Frame.Binds, hother hyx]
      exact hy
  · by_cases hyx : y = x
    · subst hyx
      exact hx.symm.imp And.right id
    · rw [Frame.Binds, hother hyx] at hy
      exact .inl hy
  · refine hother fun hyx => ?_
    subst hyx
    rcases hx with hx | hx
    · exact hl hx
    · exact ha hx.1

end

/-! ## Events -/

/-- The event stays within the scope. A frame that is not new is assigned to where it has a slot. -/
def Event.Fits (S : Scope) (w : World) : Event → Prop
  | .set g x _ => S.Allows g [x]
  | .reset g x _ =>
    S.assigns x ∧ ∀ frame, g < S.base → w.store.frames[g]? = some frame → frame.Binds x
  | .frame _ _ | .call _ _ | .print _ => True

section

variable {S : Scope} {f g : FrameId} {x : String} {v : Value} {w u : World} {e : Event}
  {es : List Event}

theorem World.becomes_define
    (h : ∀ old, g < S.base → w.store.frames[g]? = some old →
      (g = S.home ∧ x ∈ S.lets) ∨ S.assigns x ∧ old.Binds x) :
    World.Becomes S w (w.define g x v) := by
  intro f old hlt hf
  by_cases hfg : g = f
  · subst hfg
    have hnew : (w.define g x v).store.frames[g]? =
        some { old with slots := old.slots.insert x v } := by
      simp only [World.define, Store.define, Array.getElem?_modify, if_true, hf, Option.map_some]
    exact ⟨_, hnew, Frame.becomes_insert (h old hlt hf)⟩
  · have hsame : (w.define g x v).store.frames[f]? = some old := by
      simp only [World.define, Store.define, Array.getElem?_modify, if_neg hfg, hf]
    exact ⟨old, hsame, .refl old⟩

theorem Event.size_apply (e : Event) (w : World) : w.size ≤ (e.apply w).size := by
  cases e with
  | set g x v => exact Nat.le_of_eq (World.size_define w g x v).symm
  | reset g x v => exact Nat.le_of_eq (World.size_define w g x v).symm
  | frame p ss => exact Nat.le_of_lt (World.size_newFrame w (some p) ss ▸ Nat.lt_succ_self _)
  | call | print => exact Nat.le_refl _

theorem Event.Fits.becomes (h : e.Fits S w) (hw : S.base ≤ w.size) :
    World.Becomes S w (e.apply w) := by
  cases e with
  | set g x v =>
    refine World.becomes_define fun old hlt _ => ?_
    rcases h with ⟨hg, hx⟩ | hg
    · exact .inl ⟨hg, hx x List.mem_cons_self⟩
    · exact absurd hlt (Nat.not_lt.2 hg)
  | reset g x v => exact World.becomes_define fun old hlt hold => .inr ⟨h.1, h.2 old hlt hold⟩
  | frame p ss =>
    intro f old hlt hf
    have hne : f ≠ w.size := Nat.ne_of_lt (Nat.lt_of_lt_of_le hlt hw)
    exact ⟨old, (Array.getElem?_push ..).trans ((if_neg hne).trans hf), .refl old⟩
  | call | print => exact .refl w

/-- No slot is ever lost. -/
theorem Event.Fits.mono (h : e.Fits S w) (hw : S.base ≤ w.size) (hb : World.Becomes S w u) :
    e.Fits S u := by
  cases e with
  | reset g x v =>
    refine ⟨h.1, fun new hlt hnew => ?_⟩
    obtain ⟨old, hold⟩ : ∃ old, w.store.frames[g]? = some old :=
      ⟨_, Array.getElem?_eq_getElem (Nat.lt_of_lt_of_le hlt hw)⟩
    obtain ⟨new', hnew', hbecomes⟩ := hb g old hlt hold
    obtain rfl := Option.some.inj (hnew.symm.trans hnew')
    exact hbecomes.kept (h.2 old hlt hold)
  | _ => exact h

theorem World.becomes_foldl (h : ∀ e ∈ es, e.Fits S w) (hw : S.base ≤ w.size) :
    World.Becomes S w (es.foldl (fun w e => e.apply w) w) := by
  induction es generalizing w with
  | nil => exact World.Becomes.refl w
  | cons e es ih =>
    obtain ⟨he, hes⟩ := List.forall_mem_cons.1 h
    have hstep : World.Becomes S w (e.apply w) := he.becomes hw
    have hrest := ih (fun d hd => (hes d hd).mono hw hstep) (Nat.le_trans hw (e.size_apply w))
    exact hstep.trans hrest

/-- A name belongs to a frame that has a slot for it. -/
theorem Store.binds_of_findFrom {s : Store} {n : Nat} (h : s.findFrom x n f = some (g, v)) :
    ∃ frame, s.frames[g]? = some frame ∧ frame.Binds x := by
  induction n generalizing f with
  | zero => cases h
  | succ n ih =>
    obtain ⟨frame, hframe, h⟩ := Option.bind_eq_some_iff.1 h
    cases hv : frame.slots.get? x with
    | some u =>
      simp only [hv, Option.some.injEq, Prod.mk.injEq] at h
      obtain ⟨rfl, rfl⟩ := h
      exact ⟨frame, hframe, by rw [Frame.Binds, hv]; rfl⟩
    | none =>
      simp only [hv] at h
      obtain ⟨p, hp, h⟩ := Option.bind_eq_some_iff.1 h
      exact ih h

theorem Store.binds_of_resolve? {s : Store} (h : s.resolve? f x = some g) :
    ∃ frame, s.frames[g]? = some frame ∧ frame.Binds x := by
  obtain ⟨⟨g', v⟩, hfind, rfl⟩ := Option.map_eq_some_iff.1 h
  exact Store.binds_of_findFrom hfind

end

/-! ## Machines -/

/-- The code that is going on may bind, where it stands, what it defines. -/
def Control.Fits (S : Scope) : Control → Prop
  | .expr e g => S.Allows g e.lets
  | .stmt s g => S.Allows g s.lets
  | .block b g => S.Allows g (Stmt.letsList b)
  | .apply _ _ | .done _ | .raised _ => True

/-- The code that waits may bind, where it will stand, what it defines. -/
def Pending.Fits (S : Scope) : Pending → Prop
  | .more b g => S.Allows g (Stmt.letsList b)
  | .define x g => S.Allows g [x]
  | .item _ after g | .callee after g | .argument _ _ after g => S.Allows g (Expr.letsList after)
  | .entryKey _ value after g => S.Allows g (value.lets ++ Expr.letsEntries after)
  | .entryValue _ _ after g => S.Allows g (Expr.letsEntries after)
  | .binaryLeft _ e g | .collection e g => S.Allows g e.lets
  | .choose b d g => S.Allows g (Stmt.letsList b ++ Stmt.letsElse d)
  | .test c _ g _ | .whilePass c _ g _ => S.Allows g c.lets
  | .assign x _ => S.assigns x
  | .ret | .unary _ | .binaryRight _ _ | .chosen | .iterate _ _ _ | .forPass _ _ _ _ _ | .call
  | .key _ => True

/-- In all code, also of functions, assignments are to these names only. -/
def Law.assigning (S : Scope) : Law :=
  { Law.free with
    code := fun e => ∀ x v, e = .assign x v → S.assigns x
    base := S.base
    text_literal := fun _ => trivial
    builtin_named := fun _ _ => trivial
    frame_succ := by simp [Law.free] }

namespace Machine

structure Fits (S : Scope) (m : Machine) : Prop where
  control : m.control.Fits S
  stack : ∀ p ∈ m.stack, p.Fits S

section

variable {S : Scope} {limit : Option Nat} {c : Control} {f g : FrameId} {p : Pending}
  {k : List Pending} {w : World} {result : Option Value} {v : Value}

theorem fits_push (hc : c.Fits S) (hp : p.Fits S) (hk : ∀ p ∈ k, p.Fits S) :
    Fits S ⟨c, p :: k, w⟩ :=
  ⟨hc, List.forall_mem_cons.2 ⟨hp, hk⟩⟩

theorem fits_settle (v : Value) : (settle v).Fits S := by
  cases v <;> trivial

theorem fits_settleResult (r : Except Fault Value) : (settleResult r).Fits S := by
  cases r with
  | ok v => exact fits_settle v
  | error e => trivial

theorem fits_items {before : List Value} {after : List Expr}
    (h : S.Allows f (Expr.letsList after)) (hk : ∀ p ∈ k, p.Fits S) :
    (items before after f k w).Fits S := by
  cases after with
  | nil => exact ⟨trivial, hk⟩
  | cons e es =>
    obtain ⟨he, hes⟩ := Scope.allows_append.1 h
    exact fits_push he hes hk

theorem fits_entries {before : Entries Value} {after : List (Expr × Expr)}
    (h : S.Allows f (Expr.letsEntries after)) (hk : ∀ p ∈ k, p.Fits S) :
    (entries before after f k w).Fits S := by
  cases after with
  | nil => exact ⟨trivial, hk⟩
  | cons e es =>
    obtain ⟨hkey, hes⟩ := Scope.allows_append.1 h
    exact fits_push hkey hes hk

theorem fits_arguments {callee : Value} {before : List Value} {after : List Expr}
    (h : S.Allows f (Expr.letsList after)) (hk : ∀ p ∈ k, p.Fits S) :
    (arguments callee before after f k w).Fits S := by
  cases after with
  | nil => exact ⟨trivial, hk⟩
  | cons e es =>
    obtain ⟨he, hes⟩ := Scope.allows_append.1 h
    exact fits_push he hes hk

/-- The body of a loop gets a new frame for each pass. -/
theorem fits_pass {x : String} {after : List Value} {body : Block} (hw : S.base ≤ w.size)
    (hk : ∀ p ∈ k, p.Fits S) : (forPass x after body f v k w).Fits S := by
  cases after with
  | nil => exact ⟨trivial, hk⟩
  | cons u us => exact fits_push (.inr hw) trivial hk

theorem fits_evaluate {e : Expr} (ha : ∀ x v, e = .assign x v → S.assigns x)
    (he : S.Allows f e.lets) (hk : ∀ p ∈ k, p.Fits S) : (evaluate e f k w).Fits S := by
  cases e with
  | ident x =>
    simp only [evaluate]
    split
    · exact ⟨fits_settle _, hk⟩
    · split <;> exact ⟨trivial, hk⟩
  | integer | boolean | string | function => exact ⟨trivial, hk⟩
  | array es => exact fits_items he hk
  | hash es => exact fits_entries he hk
  | unary op e => exact fits_push he trivial hk
  | assign x e => exact fits_push he (ha x e rfl) hk
  | forIn x e b => exact fits_push he trivial hk
  | whileDo c b => exact fits_push he he hk
  | binary l op r =>
    obtain ⟨hl, hr⟩ := Scope.allows_append.1 he
    exact fits_push hl hr hk
  | index l r =>
    obtain ⟨hl, hr⟩ := Scope.allows_append.1 he
    exact fits_push hl hr hk
  | ifElse c b d =>
    obtain ⟨hc, hbd⟩ := Scope.allows_append.1 he
    exact fits_push hc hbd hk
  | call g es =>
    obtain ⟨hg, hes⟩ := Scope.allows_append.1 he
    exact fits_push hg hes hk

theorem fits_execute {s : Stmt} (hs : S.Allows f s.lets) (hk : ∀ p ∈ k, p.Fits S) :
    (execute s f k w).Fits S := by
  cases s with
  | define x e =>
    obtain ⟨hx, he⟩ := Scope.allows_cons.1 hs
    exact fits_push he hx hk
  | ret e => exact fits_push hs trivial hk
  | expr e => exact ⟨hs, hk⟩
  | brk | cont => exact ⟨trivial, hk⟩

theorem fits_statements {b : Block} (hb : S.Allows f (Stmt.letsList b))
    (hk : ∀ p ∈ k, p.Fits S) : (statements b f k w).Fits S := by
  cases b with
  | nil => exact ⟨trivial, hk⟩
  | cons s b =>
    obtain ⟨hs, hb⟩ := Scope.allows_append.1 hb
    exact fits_push hs hb hk

/-- The body of a function gets a new frame for each call. -/
theorem fits_call {callee : Value} {arguments : List Value} (hw : S.base ≤ w.size)
    (hk : ∀ p ∈ k, p.Fits S) : (call limit callee arguments k w).Fits S := by
  cases callee with
  | function c =>
    simp only [call]
    split
    · exact ⟨trivial, hk⟩
    · split
      · exact ⟨trivial, hk⟩
      · exact fits_push (.inr hw) trivial hk
  | builtin b => exact ⟨fits_settleResult _, hk⟩
  | _ => exact ⟨trivial, hk⟩

theorem fits_resume (hw : S.base ≤ w.size) (hp : p.Fits S) (hk : ∀ p ∈ k, p.Fits S) :
    (resume result p k w).Fits S := by
  cases p with
  | more b f =>
    cases b with
    | nil => exact ⟨trivial, hk⟩
    | cons s b =>
      obtain ⟨hs, hb⟩ := Scope.allows_append.1 hp
      exact fits_push hs hb hk
  | define | ret | chosen | call => exact ⟨trivial, hk⟩
  | item before after f => exact fits_items hp hk
  | entryKey before value after f =>
    obtain ⟨hvalue, hafter⟩ := Scope.allows_append.1 hp
    simp only [resume]
    split
    · exact fits_push hvalue hafter hk
    · exact ⟨trivial, hk⟩
  | entryValue before key after f => exact fits_entries hp hk
  | unary | binaryRight | key => exact ⟨fits_settleResult _, hk⟩
  | binaryLeft | collection => exact fits_push hp trivial hk
  | assign x f =>
    simp only [resume]
    split <;> exact ⟨trivial, hk⟩
  | choose b d f =>
    obtain ⟨hb, hd⟩ := Scope.allows_append.1 hp
    simp only [resume]
    split
    · exact fits_push hb trivial hk
    · split
      · exact fits_push hd trivial hk
      · exact ⟨trivial, hk⟩
  | iterate x body f =>
    simp only [resume]
    split
    · exact fits_pass hw hk
    · exact ⟨trivial, hk⟩
  | forPass x after body f before => exact fits_pass hw hk
  | test c body f before =>
    simp only [resume]
    split
    · exact fits_push (.inr hw) hp hk
    · exact ⟨trivial, hk⟩
  | whilePass c body f before => exact fits_push hp hp hk
  | callee args f => exact fits_arguments hp hk
  | argument callee before after f => exact fits_arguments hp hk

theorem fits_unwind (s : Signal) (hw : S.base ≤ w.size) (hp : p.Fits S)
    (hk : ∀ p ∈ k, p.Fits S) : (unwind s p k w).Fits S := by
  cases p with
  | forPass x after body f before =>
    cases s with
    | cont => exact fits_pass hw hk
    | _ => exact ⟨trivial, hk⟩
  | whilePass c body f before =>
    cases s with
    | cont => exact fits_push hp hp hk
    | _ => exact ⟨trivial, hk⟩
  | call =>
    cases s with
    | returned v => exact ⟨fits_settle v, hk⟩
    | _ => exact ⟨trivial, hk⟩
  | _ => exact ⟨trivial, hk⟩

theorem fits_resumeEvents (hp : p.Fits S) : ∀ e ∈ resumeEvents v p w, e.Fits S w := by
  cases p with
  | define x f => exact List.forall_mem_singleton.2 hp
  | assign x f =>
    cases hg : w.store.resolve? f x with
    | none =>
      simp only [resumeEvents, hg]
      exact List.forall_mem_nil _
    | some g =>
      simp only [resumeEvents, hg]
      refine List.forall_mem_singleton.2 ⟨hp, fun frame _ hframe => ?_⟩
      obtain ⟨frame', hframe', hb⟩ := Store.binds_of_resolve? hg
      obtain rfl := Option.some.inj (hframe.symm.trans hframe')
      exact hb
  | iterate x body f =>
    cases v with
    | array vs => cases vs <;> simp [resumeEvents, passEvents, Event.Fits]
    | _ => exact List.forall_mem_nil _
  | forPass x after body f before => cases after <;> simp [resumeEvents, passEvents, Event.Fits]
  | test c body f before =>
    simp only [resumeEvents]
    split <;> simp [Event.Fits]
  | _ => exact List.forall_mem_nil _

theorem fits_callEvents (callee : Value) (arguments : List Value) :
    ∀ e ∈ callEvents limit callee arguments w, e.Fits S w := by
  refine List.forall_mem_cons.2 ⟨trivial, ?_⟩
  split
  · split
    · exact List.forall_mem_nil _
    · split
      · exact List.forall_mem_nil _
      · exact List.forall_mem_singleton.2 trivial
  · exact List.forall_mem_singleton.2 trivial
  · exact List.forall_mem_nil _

end

/-- What a machine does next stays within the scope of its code. -/
theorem Fits.events {S : Scope} {m : Machine} (limit : Option Nat) (h : m.Fits S) :
    ∀ e ∈ m.events limit, e.Fits S m.world := by
  obtain ⟨c, k, w⟩ := m
  obtain ⟨hc, hk⟩ := h
  cases c with
  | expr | stmt | block => exact List.forall_mem_nil _
  | apply callee arguments => exact fits_callEvents callee arguments
  | done result =>
    cases k with
    | nil => exact List.forall_mem_nil _
    | cons p k => exact fits_resumeEvents (List.forall_mem_cons.1 hk).1
  | raised s =>
    cases k with
    | nil => cases s <;> exact List.forall_mem_nil _
    | cons p k =>
      cases p with
      | forPass x after body f before =>
        cases s with
        | cont => cases after <;> simp [Machine.events, passEvents, Event.Fits]
        | _ => exact List.forall_mem_nil _
      | _ => cases s <;> exact List.forall_mem_nil _

theorem Fits.step {S : Scope} {m : Machine} (limit : Option Nat) (ho : m.Obeys (.assigning S))
    (h : m.Fits S) : (m.step limit).Fits S := by
  obtain ⟨c, k, w⟩ := m
  obtain ⟨hc, hk⟩ := h
  have hw : S.base ≤ w.size := ho.world.base
  cases c with
  | expr e f => exact fits_evaluate (ho.control.1 e e.mem_within_self) hc hk
  | stmt s f => exact fits_execute hc hk
  | block b f => exact fits_statements hc hk
  | apply callee arguments => exact fits_call hw hk
  | done result =>
    cases k with
    | nil => exact ⟨hc, hk⟩
    | cons p k =>
      obtain ⟨hp, hk⟩ := List.forall_mem_cons.1 hk
      exact fits_resume hw hp hk
  | raised s =>
    cases k with
    | nil => exact ⟨hc, hk⟩
    | cons p k =>
      obtain ⟨hp, hk⟩ := List.forall_mem_cons.1 hk
      exact fits_unwind s hw hp hk

theorem Fits.becomes_step {S : Scope} {m : Machine} (limit : Option Nat) (h : m.Fits S)
    (hw : S.base ≤ m.world.size) : World.Becomes S m.world (m.step limit).world := by
  have hb := World.becomes_foldl (h.events limit) hw
  have hs : (m.step limit).world.store = _ := (step_events limit m).1
  unfold World.Becomes at hb ⊢
  rw [hs]
  exact hb

/-- Whatever the machine does, of the frames that there were it becomes what its scope allows. -/
theorem Fits.becomes {S : Scope} {m : Machine} (limit : Option Nat) (ho : m.Obeys (.assigning S))
    (h : m.Fits S) (n : Nat) : World.Becomes S m.world (m.after limit n).world := by
  induction n generalizing m with
  | zero => exact World.Becomes.refl _
  | succ n ih =>
    have hstep := h.becomes_step limit ho.world.base
    have hrest := ih (ho.step limit) (h.step limit ho)
    exact hstep.trans hrest

end Machine

/-! ## Evaluations -/

/-- There is an assignment to the name in the code. -/
def Control.Assigns (c : Control) (x : String) : Prop := ∃ e, .assign x e ∈ c.within

/-- There is an assignment to the name in the body of a function that a variable holds. -/
def World.Assigns (w : World) (x : String) : Prop :=
  ∃ (g : FrameId) (frame : Frame) (s : String × Value) (c : Closure) (e : Expr),
    w.store.frames[g]? = some frame ∧ s ∈ frame.slots ∧ .function c ∈ s.2.within ∧
      .assign x e ∈ Stmt.withinList c.body

/-- The scope of this code in frame `f`. -/
def Control.scope (c : Control) (f : FrameId) (w : World) : Scope where
  base := w.size
  home := f
  lets := c.lets
  assigns x := c.Assigns x ∨ w.Assigns x

section

variable {c : Control} {f : FrameId} {w : World}

theorem World.obeys_scope (c : Control) (f : FrameId) (w : World) :
    w.Obeys (.assigning (c.scope f w)) := by
  refine ⟨Nat.le_refl _, fun _ _ _ => trivial, fun {g frame s} _ hframe hs v hv => ?_⟩
  cases v with
  | function cl =>
    refine ⟨fun d hd => ?_, trivial⟩
    rintro x e rfl
    rcases List.mem_cons.1 hd with hd | hd
    · cases hd
    · exact .inr ⟨g, frame, s, cl, e, hframe, hs, hv, hd⟩
  | _ => trivial

theorem Control.obeys_scope (hc : c.StandsIn f) (n : Nat) :
    c.Obeys (.assigning (c.scope f w)) n := by
  have hcode : ∀ d ∈ c.within, (Law.assigning (c.scope f w)).code d := by
    rintro d hd x e rfl
    exact .inl ⟨e, hd⟩
  cases c with
  | expr e g => exact ⟨hcode, trivial⟩
  | stmt s g => exact ⟨hcode, trivial⟩
  | block b g => exact ⟨Block.obeys_iff.1 hcode, trivial⟩
  | apply | done | raised => exact absurd hc id

theorem Control.fits_scope (hc : c.StandsIn f) : c.Fits (c.scope f w) := by
  cases c with
  | expr | stmt | block => exact .inl ⟨hc, fun x hx => hx⟩
  | apply | done | raised => exact absurd hc id

end

/-- All frames keep their parents and their names. Names are gained only by the frame in which the
code stands, and only those of definitions outside of loops and functions in it; the others keep
their values unless the code, or a function that a variable holds, assigns to them. -/
theorem Machine.run_binds {limit : Option Nat} {n : Nat} {c : Control} {f : FrameId} {w u : World}
    {o : Outcome} (hc : c.StandsIn f) (h : run limit n ⟨c, [], w⟩ = some (o, u)) :
    ∀ g old, w.store.frames[g]? = some old → ∃ new, u.store.frames[g]? = some new ∧
      new.parent = old.parent ∧
      (∀ x, old.Binds x → new.Binds x) ∧
      (∀ x, new.Binds x → old.Binds x ∨ g = f ∧ x ∈ c.lets) ∧
      ∀ x, ¬c.Assigns x → ¬w.Assigns x → ¬(g = f ∧ x ∈ c.lets) →
        new.slots.get? x = old.slots.get? x := by
  intro g old hg
  have hlt : g < w.size := (Array.getElem?_eq_some_iff.1 hg).1
  have hobeys : Obeys (.assigning (c.scope f w)) ⟨c, [], w⟩ :=
    ⟨World.obeys_scope c f w, Control.obeys_scope hc _, List.forall_mem_nil _⟩
  have hfits : Fits (c.scope f w) ⟨c, [], w⟩ := ⟨Control.fits_scope hc, List.forall_mem_nil _⟩
  have hafter := hfits.becomes limit hobeys n
  rw [run_eq_some.1 h] at hafter
  obtain ⟨new, hnew, hb⟩ := hafter g old hlt hg
  refine ⟨new, hnew, hb.parent, fun x => hb.kept, fun x => hb.gained, fun x hcode hheap hl => ?_⟩
  exact hb.value (not_or.2 ⟨hcode, hheap⟩) hl

/-- In each pass the loop has a definition and a call a parameter of one name; the `if` makes a
definition in the frame itself. -/
def shadowing : Block :=
  [.expr (.forIn "i" (.array [.integer 1])
     [.define "x" (.integer 5), .expr (.call (.ident "f") [.ident "x"])]),
   .expr (.ifElse (.boolean true) [.define "y" (.integer 6)] none)]

/-- A variable of that name and a function that assigns to another one. -/
def shadowed : Frame :=
  ⟨none, [("x", .integer 7), ("z", .null),
    ("f", .function ⟨0, ["x"], [.expr (.assign "z" (.ident "x"))], 0⟩)]⟩

theorem Machine.run_binds_shadowing :
    let w := { World.fresh fun _ => 0 with store := ⟨#[shadowed]⟩ }
    ∃ o u new, run none 60 ⟨.block shadowing 0, [], w⟩ = some (o, u) ∧
      u.store.frames[0]? = some new ∧ new.slots.get? "x" = some (.integer 7) ∧
      ¬new.Binds "i" ∧ new.Binds "y" := by
  intro w
  have hrun : (run none 60 ⟨.block shadowing 0, [], w⟩).map (fun r =>
      r.2.store.frames[0]?.all fun new => decide (new.Binds "y")) = some true := by
    decide +kernel
  obtain ⟨⟨o, u⟩, h, hy⟩ := Option.map_eq_some_iff.1 hrun
  obtain ⟨new, hnew, -, -, hgained, hvalue⟩ :=
    run_binds (c := .block shadowing 0) (f := 0) rfl h 0 shadowed rfl
  have hcode : ¬(Control.block shadowing 0).Assigns "x" := by
    rintro ⟨e, he⟩
    simp [Control.within, shadowing, Stmt.withinList, Stmt.within, Expr.within, Expr.withinList,
      Stmt.withinElse] at he
  have hheap : ¬w.Assigns "x" := by
    rintro ⟨g, frame, s, c, e, hframe, hs, hc, he⟩
    obtain rfl : shadowed = frame := by
      cases g with
      | zero => exact Option.some.inj hframe
      | succ g => cases hframe
    simp only [shadowed, List.mem_cons, List.not_mem_nil, or_false] at hs
    rcases hs with rfl | rfl | rfl
    · simp [Value.within] at hc
    · simp [Value.within] at hc
    · simp only [Value.within, List.mem_singleton, Value.function.injEq] at hc
      subst hc
      simp [Stmt.withinList, Stmt.within, Expr.within] at he
  have hi : ¬new.Binds "i" := fun hi => absurd (hgained "i" hi) (by decide)
  simp only [hnew, Option.all_some, decide_eq_true_eq] at hy
  exact ⟨o, u, new, h, hnew, (hvalue "x" hcode hheap (by decide)).trans rfl, hi, hy⟩

end MonkeyLang
