/-
Variables that nobody mentions. Where no code reads a name or assigns to it, and
no definition binds it where it is bound already, its value makes no difference:
with another value in its slot each step does the same and leaves the slot alone,
and so does each run.
-/
import MonkeyLang.Proofs.Binding
import MonkeyLang.Proofs.Sequence

namespace MonkeyLang

/-! ## Frames -/

section

variable {s : Store} {w : World} {f g : FrameId} {x y : String} {u v : Value} {ss : Slots}

theorem Slots.insert_insert (x : String) (u v : Value) (ss : Slots) :
    Slots.insert x u (Slots.insert x v ss) = Slots.insert x u ss := by
  induction ss with
  | nil => simp [Slots.insert]
  | cons s ss ih =>
    obtain ⟨z, t⟩ := s
    by_cases hz : z = x
    · simp [Slots.insert, hz]
    · simp [Slots.insert, hz, ih]

theorem Slots.insert_self (h : Slots.get? ss x = some v) : Slots.insert x v ss = ss := by
  induction ss with
  | nil => cases h
  | cons s ss ih =>
    obtain ⟨z, t⟩ := s
    by_cases hz : z = x
    · subst hz
      have ht : t = v := by simpa [Slots.get?] using h
      simp [Slots.insert, ht]
    · have hss : Slots.get? ss x = some v := by simpa [Slots.get?, List.find?_cons, hz] using h
      simp [Slots.insert, hz, ih hss]

/-- A slot that is there keeps its place. -/
theorem Slots.insert_comm (hxy : y ≠ x) (hx : (Slots.get? ss x).isSome) (u v : Value) :
    Slots.insert y u (Slots.insert x v ss) = Slots.insert x v (Slots.insert y u ss) := by
  induction ss with
  | nil => cases hx
  | cons s ss ih =>
    obtain ⟨z, t⟩ := s
    by_cases hzx : z = x
    · subst hzx
      simp [Slots.insert, hxy.symm]
    · by_cases hzy : z = y
      · simp [Slots.insert, hzy, hxy]
      · have hss : (Slots.get? ss x).isSome := by
          simpa [Slots.get?, List.find?_cons, hzx] using hx
        simp [Slots.insert, hzx, hzy, ih hss]

/-- The frame has a slot for the name. -/
def World.Binds (w : World) (f : FrameId) (x : String) : Prop :=
  ∃ frame, w.store.frames[f]? = some frame ∧ frame.Binds x

theorem World.Binds.lt (h : w.Binds f x) : f < w.size := by
  obtain ⟨frame, hf, -⟩ := h
  exact (Array.getElem?_eq_some_iff.1 hf).1

theorem Store.findFrom_define (hxy : y ≠ x) (n : Nat) (g : FrameId) :
    (s.define f x v).findFrom y n g = s.findFrom y n g := by
  induction n generalizing g with
  | zero => rfl
  | succ n ih =>
    simp only [findFrom, define, Array.getElem?_modify] at ih ⊢
    split
    · cases s.frames[g]? with
      | none => rfl
      | some frame =>
        simp only [Option.map_some, Option.bind_eq_bind, Option.bind_some,
          Slots.get?_insert_other _ _ hxy, ih]
    · simp only [ih]

theorem Store.find?_define (hxy : y ≠ x) (g : FrameId) :
    (s.define f x v).find? g y = s.find? g y := by
  have hsize : (s.define f x v).frames.size = s.frames.size := Array.size_modify
  rw [find?, find?, hsize, findFrom_define hxy]

theorem Store.get?_define (hxy : y ≠ x) (g : FrameId) :
    (s.define f x v).get? g y = s.get? g y := by
  rw [get?, get?, find?_define hxy]

theorem Store.resolve?_define (hxy : y ≠ x) (g : FrameId) :
    (s.define f x v).resolve? g y = s.resolve? g y := by
  rw [resolve?, resolve?, find?_define hxy]

namespace World

theorem frames_define_self {frame : Frame} (h : w.store.frames[f]? = some frame) (x : String)
    (v : Value) : (w.define f x v).store.frames[f]? =
      some { frame with slots := frame.slots.insert x v } := by
  simp only [World.define, Store.define, Array.getElem?_modify, if_true, h, Option.map_some]

theorem frames_define_other (h : f ≠ g) (w : World) (x : String) (v : Value) :
    (w.define f x v).store.frames[g]? = w.store.frames[g]? := by
  simp only [World.define, Store.define, Array.getElem?_modify, if_neg h]

theorem frames_newFrame (hf : f < w.size) (p : Option FrameId) (ss : Slots) :
    (w.newFrame p ss).2.store.frames[f]? = w.store.frames[f]? :=
  (Array.getElem?_push ..).trans (if_neg (Nat.ne_of_lt hf))

/-- A definition in a new frame. -/
theorem define_newFrame (w : World) (p : Option FrameId) (x : String) (v : Value) :
    (w.newFrame p []).2.define w.size x v = (w.newFrame p (.ofList [(x, v)])).2 := by
  simp only [World.newFrame, Store.newFrame, World.define, Store.define, World.size,
    World.mk.injEq, Store.mk.injEq, and_true]
  refine Array.ext_getElem? fun g => ?_
  simp only [Array.getElem?_push, Array.getElem?_modify]
  by_cases hg : w.store.frames.size = g
  · simp only [hg, if_true, Option.map_some]
    rfl
  · simp only [if_neg hg, if_neg (Ne.symm hg)]

/-- A variable that gets the value it has. -/
theorem define_self {frame : Frame} (hf : w.store.frames[f]? = some frame)
    (hx : frame.slots.get? x = some v) : w.define f x v = w := by
  have hframes : w.store.frames.modify f
      (fun frame => { frame with slots := frame.slots.insert x v }) = w.store.frames := by
    refine Array.ext_getElem? fun g => ?_
    rw [Array.getElem?_modify]
    split
    · next hg =>
      subst hg
      simp only [hf, Option.map_some, Slots.insert_self hx]
    · rfl
  rw [World.define, Store.define, hframes]

theorem define_define (w : World) (f : FrameId) (x : String) (u v : Value) :
    (w.define f x v).define f x u = w.define f x u := by
  simp only [World.define, Store.define, World.mk.injEq, Store.mk.injEq, and_true]
  refine Array.ext_getElem? fun g => ?_
  simp only [Array.getElem?_modify]
  split
  · cases w.store.frames[g]? with
    | none => rfl
    | some frame => simp only [Option.map_some, Slots.insert_insert]
  · rfl

theorem define_comm (h : g ≠ f ∨ y ≠ x) (hb : w.Binds f x) (u v : Value) :
    (w.define f x v).define g y u = (w.define g y u).define f x v := by
  simp only [World.define, Store.define, World.mk.injEq, Store.mk.injEq, and_true]
  refine Array.ext_getElem? fun d => ?_
  simp only [Array.getElem?_modify]
  by_cases hgd : g = d
  · by_cases hfd : f = d
    · subst hgd hfd
      obtain ⟨frame, hframe, hx⟩ := hb
      have hyx : y ≠ x := h.resolve_left fun hne => hne rfl
      simp only [hframe, if_true, Option.map_some, Slots.insert_comm hyx hx]
    · simp only [if_pos hgd, if_neg hfd]
  · simp only [if_neg hgd]

theorem newFrame_define (hf : f < w.size) (p : Option FrameId) (ss : Slots) :
    (w.define f x v).newFrame p ss =
      ((w.newFrame p ss).1, (w.newFrame p ss).2.define f x v) := by
  simp only [World.newFrame, Store.newFrame, World.define, Store.define, Array.size_modify,
    Prod.mk.injEq, World.mk.injEq, Store.mk.injEq, and_true, true_and]
  refine Array.ext_getElem? fun d => ?_
  simp only [Array.getElem?_push, Array.getElem?_modify, Array.size_modify]
  split
  · next hd => rw [if_neg fun hfd => Nat.ne_of_lt hf (hfd.trans hd)]
  · rfl

theorem assign_define (hxy : y ≠ x) (hb : w.Binds f x) (g : FrameId) (u v : Value) :
    (w.define f x v).assign g y u = ((w.assign g y u).1, (w.assign g y u).2.define f x v) := by
  have hresolve : (w.define f x v).store.resolve? g y = w.store.resolve? g y :=
    Store.resolve?_define hxy g
  simp only [World.assign, Store.assign, hresolve]
  cases w.store.resolve? g y with
  | none => rfl
  | some d =>
    have hcomm := define_comm (.inr hxy : d ≠ f ∨ y ≠ x) hb u v
    exact congrArg (Prod.mk true) hcomm

end World

end

/-! ## Steps -/

/-- No code reads the name. -/
def Law.without (x : String) : Law :=
  { Law.free with
    code := fun e => e ≠ .ident x
    text_literal := fun _ => trivial
    builtin_named := fun _ _ => trivial }

namespace Machine

/-- The machine with another value in a slot. -/
def define (f : FrameId) (x : String) (v : Value) (m : Machine) : Machine :=
  { m with world := m.world.define f x v }

section

variable {S : Scope} {limit : Option Nat} {w : World} {f g : FrameId} {x : String} {v : Value}
  {k : List Pending}

theorem evaluate_define {e : Expr} (he : e ≠ .ident x) :
    evaluate e g k (w.define f x v) = (evaluate e g k w).define f x v := by
  cases e with
  | ident y =>
    have hget : (w.define f x v).store.get? g y = w.store.get? g y :=
      Store.get?_define (fun hy => he (congrArg Expr.ident hy)) g
    simp only [evaluate, hget]
    split
    · rfl
    · split <;> rfl
  | array es => cases es <;> rfl
  | hash es => cases es <;> rfl
  | _ => rfl

theorem pass_define (hf : f < w.size) (y : String) (after : List Value) (body : Block)
    (result : Value) : forPass y after body g result k (w.define f x v) =
      (forPass y after body g result k w).define f x v := by
  cases after with
  | nil => rfl
  | cons u us =>
    simp only [forPass, World.newFrame_define hf]
    rfl

theorem builtin_define (b : Builtin) (vs : List Value) :
    b.call vs (w.define f x v) = ((b.call vs w).1, (b.call vs w).2.define f x v) := by
  cases b <;> simp only [Builtin.call] <;> (repeat' split) <;> rfl

theorem call_define (hf : f < w.size) (callee : Value) (vs : List Value) :
    call limit callee vs k (w.define f x v) = (call limit callee vs k w).define f x v := by
  cases callee with
  | function c =>
    have hdepth : (w.define f x v).depth = w.depth := rfl
    simp only [call, hdepth, World.newFrame_define hf]
    split
    · rfl
    · split <;> rfl
  | builtin b =>
    simp only [call, builtin_define]
    rfl
  | _ => rfl

theorem resume_define (hb : w.Binds f x) (hx : ¬S.assigns x) (hs : ¬S.Allows f [x])
    {p : Pending} (hp : p.Fits S) (result : Option Value) :
    resume result p k (w.define f x v) = (resume result p k w).define f x v := by
  cases p with
  | more b g => cases b <;> rfl
  | define y g =>
    have hne : g ≠ f ∨ y ≠ x := by
      by_cases hg : g = f
      · exact .inr fun hy => hs (hg ▸ hy ▸ hp)
      · exact .inl hg
    simp only [resume, World.define_comm hne hb]
    rfl
  | item before after g => cases after <;> rfl
  | entryKey before value after g =>
    simp only [resume]
    split <;> rfl
  | entryValue before key after g => cases after <;> rfl
  | assign y g =>
    have hne : y ≠ x := fun hy => hx (hy ▸ hp)
    simp only [resume, World.assign_define hne hb]
    rfl
  | choose b d g =>
    simp only [resume]
    split
    · rfl
    · split <;> rfl
  | iterate y body g =>
    simp only [resume]
    split
    · exact pass_define hb.lt y _ body .null
    · rfl
  | forPass y after body g before => exact pass_define hb.lt y after body _
  | test c body g before =>
    simp only [resume, World.newFrame_define hb.lt]
    split <;> rfl
  | callee args g => cases args <;> rfl
  | argument callee before after g => cases after <;> rfl
  | _ => rfl

theorem unwind_define (hf : f < w.size) (s : Signal) (p : Pending) :
    unwind s p k (w.define f x v) = (unwind s p k w).define f x v := by
  cases p with
  | forPass y after body g before =>
    cases s with
    | cont => exact pass_define hf y after body before
    | _ => rfl
  | _ => cases s <;> rfl

end

/-- The variable is there, but what the machine does has nothing to do with it. -/
structure Ignores (S : Scope) (f : FrameId) (x : String) (m : Machine) : Prop where
  binds : m.world.Binds f x
  fits : m.Fits S
  assigning : m.Obeys (.assigning S)
  reading : m.Obeys (.without x)
  not_assigns : ¬S.assigns x
  not_allows : ¬S.Allows f [x]

namespace Ignores

variable {S : Scope} {limit : Option Nat} {f : FrameId} {x : String} {m : Machine}
  {o : Outcome} {u : World}

theorem step_define (h : m.Ignores S f x) (v : Value) :
    (m.define f x v).step limit = (m.step limit).define f x v := by
  obtain ⟨hb, hfits, -, hreading, hx, hs⟩ := h
  obtain ⟨c, k, w⟩ := m
  cases c with
  | expr e g => exact evaluate_define (hreading.control.1 e e.mem_within_self)
  | stmt s g => cases s <;> rfl
  | block b g => cases b <;> rfl
  | apply callee vs => exact call_define hb.lt callee vs
  | done result =>
    cases k with
    | nil => rfl
    | cons p k =>
      have hp : p.Fits S := hfits.stack p List.mem_cons_self
      exact resume_define hb hx hs hp result
  | raised s =>
    cases k with
    | nil => rfl
    | cons p k => exact unwind_define hb.lt s p

theorem becomes (limit : Option Nat) (h : m.Ignores S f x) (n : Nat) :
    World.Becomes S m.world (m.after limit n).world :=
  h.fits.becomes limit h.assigning n

theorem step (h : m.Ignores S f x) : (m.step limit).Ignores S f x := by
  have hlt : f < S.base := Nat.not_le.1 fun hle => h.not_allows (.inr hle)
  obtain ⟨old, hold, hx⟩ := h.binds
  obtain ⟨new, hnew, hb⟩ := h.becomes limit 1 f old hlt hold
  exact { h with
    binds := ⟨new, hnew, hb.kept hx⟩
    fits := h.fits.step limit h.assigning
    assigning := h.assigning.step limit
    reading := h.reading.step limit }

theorem after_define (h : m.Ignores S f x) (v : Value) (n : Nat) :
    (m.define f x v).after limit n = (m.after limit n).define f x v := by
  induction n generalizing m with
  | zero => rfl
  | succ n ih => rw [Machine.after, Machine.after, h.step_define, ih h.step]

/-- With another value in the slot the machine ends the same, and leaves the slot alone. -/
theorem ends_define_iff (h : m.Ignores S f x) (v : Value) :
    Ends limit (m.define f x v) o u ↔ ∃ u', Ends limit m o u' ∧ u = u'.define f x v := by
  constructor
  · intro ⟨n, hn⟩
    rw [run_eq_some, h.after_define] at hn
    rcases ha : m.after limit n with ⟨c, k, w⟩
    rw [ha] at hn
    obtain ⟨rfl, rfl, rfl⟩ := Machine.mk.inj hn
    exact ⟨w, ⟨n, run_eq_some.2 ha⟩, rfl⟩
  · rintro ⟨u', ⟨n, hn⟩, rfl⟩
    rw [run_eq_some] at hn
    refine ⟨n, run_eq_some.2 ?_⟩
    rw [h.after_define, hn]
    rfl

end Ignores

end Machine

end MonkeyLang
