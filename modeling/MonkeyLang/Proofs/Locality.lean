/-
What an evaluation sees and changes. It begins with the frames that its code
stands in or that its functions were made in, and it gets no further than one
reaches from there through parents and through the functions in variables. Two
runs in worlds that are the same as far as that go side by side; whatever else
there is stays as it was.
-/
import MonkeyLang.Proofs.Faults
import MonkeyLang.Proofs.Law

namespace MonkeyLang

/-! ## Reachable frames -/

/-- One of the values is a function that was made in the frame. -/
def Captures (vs : List Value) (f : FrameId) : Prop := ∃ c, .function c ∈ vs ∧ c.frame = f

/-- The frames that what is going on begins with. -/
def Control.Names : Control → FrameId → Prop
  | .expr _ g, f | .stmt _ g, f | .block _ g, f => f = g
  | .apply callee arguments, f =>
    Captures callee.within f ∨ ∃ v ∈ arguments, Captures v.within f
  | .done result, f => ∃ v ∈ result, Captures v.within f
  | .raised s, f => Captures s.within f

/-- One gets to the frame from these, by parents and by functions in variables. -/
inductive Store.Reaches (s : Store) (roots : FrameId → Prop) : FrameId → Prop
  | root {f : FrameId} : roots f → Reaches s roots f
  | parent {f p : FrameId} {frame : Frame} : Reaches s roots f → s.frames[f]? = some frame →
      frame.parent = some p → Reaches s roots p
  | captured {f g : FrameId} {frame : Frame} {slot : String × Value} : Reaches s roots f →
      s.frames[f]? = some frame → slot ∈ frame.slots → Captures slot.2.within g → Reaches s roots g

/-- Of the frames that there were in the beginning only these may be used. -/
def Law.within (R : FrameId → Prop) (base : Nat) : Law :=
  { Law.free with
    frame := fun n f => R f ∨ base ≤ f ∧ f < n
    base := base
    frame_succ := by
      intro n f
      have hlt : f < n + 1 ↔ f < n ∨ f = n := Nat.lt_succ_iff_lt_or_eq
      rw [hlt]
      by_cases hf : f = n
      · subst hf; simp
      · simp [hf] }

section

variable {R : FrameId → Prop} {base n : Nat} {v : Value} {s : Signal} {w : World} {c : Control}
  {f : FrameId}

theorem Law.admits_within {us : List Value} : (∀ u ∈ us, (Law.within R base).Admits n u) ↔
    ∀ f, Captures us f → R f ∨ base ≤ f ∧ f < n := by
  have hone : ∀ u : Value, (Law.within R base).Admits n u ↔
      ∀ c, u = .function c → R c.frame ∨ base ≤ c.frame ∧ c.frame < n := by
    intro u
    cases u <;> simp [Law.Admits, Law.within, Law.free, Expr.Obeys]
  constructor
  · rintro h f ⟨c, hc, rfl⟩
    exact (hone _).1 (h _ hc) c rfl
  · intro h u hu
    exact (hone u).2 fun c hc => h c.frame ⟨c, hc ▸ hu, rfl⟩

/-- Some time or other a frame may be used if it is one of these or a new one. -/
theorem Law.frame_within : (∃ n, (Law.within R base).frame n f) ↔ R f ∨ base ≤ f :=
  ⟨fun ⟨_, h⟩ => h.imp id And.left, fun h => ⟨f + 1, h.imp id fun h => ⟨h, Nat.lt_succ_self f⟩⟩⟩

theorem Value.obeys_within : v.Obeys (.within R base) n ↔
    ∀ f, Captures v.within f → R f ∨ base ≤ f ∧ f < n :=
  Law.admits_within

theorem Expr.obeys_within (e : Expr) : e.Obeys (.within R base) := fun _ _ => trivial

theorem Block.obeys_within (b : Block) : Block.Obeys (.within R base) b := fun _ _ _ _ => trivial

theorem Control.obeys_within : c.Obeys (.within R base) n ↔
    ∀ f, c.Names f → R f ∨ base ≤ f ∧ f < n := by
  cases c with
  | expr | stmt =>
    exact ⟨fun h _ he => he ▸ h.2, fun h => ⟨fun _ _ => trivial, h _ rfl⟩⟩
  | block => exact ⟨fun h _ he => he ▸ h.2, fun h => ⟨Block.obeys_within _, h _ rfl⟩⟩
  | apply callee arguments =>
    simp only [Control.Obeys, Control.Names, Value.obeys_within]
    constructor
    · rintro ⟨hc, ha⟩ f (h | ⟨v, hv, h⟩)
      · exact hc f h
      · exact ha v hv f h
    · exact fun h => ⟨fun f hf => h f (.inl hf), fun v hv f hf => h f (.inr ⟨v, hv, hf⟩)⟩
  | done result =>
    simp only [Control.Obeys, Control.Names, Value.obeys_within]
    constructor
    · rintro h f ⟨v, hv, hf⟩
      exact h v hv f hf
    · exact fun h v hv f hf => h f ⟨v, hv, hf⟩
  | raised s => exact Law.admits_within

/-- Frames that are closed under what one can get to from them make a law, and it is obeyed. -/
theorem World.obeys_within (w : World) (roots : FrameId → Prop) :
    w.Obeys (.within (w.store.Reaches roots) w.size) := by
  have hold : ∀ {f}, (Law.within (w.store.Reaches roots) w.size).frame w.size f →
      w.store.Reaches roots f := by
    rintro f (hf | ⟨hle, hlt⟩)
    · exact hf
    · exact absurd hlt (Nat.not_lt.2 hle)
  refine ⟨Nat.le_refl _, fun hf hframe hp => ?_, fun hf hframe hs => ?_⟩
  · exact .inl (.parent (hold hf) hframe hp)
  · exact Value.obeys_within.2 fun g hg => .inl (.captured (hold hf) hframe hs hg)

/-- Nothing beyond what the law allows can be reached. -/
theorem World.Obeys.of_reaches {roots : FrameId → Prop} {g : FrameId}
    (h : w.Obeys (.within R base)) (hroots : ∀ f, roots f → R f ∨ base ≤ f ∧ f < w.size)
    (hg : w.store.Reaches roots g) : R g ∨ base ≤ g ∧ g < w.size := by
  induction hg with
  | root hf => exact hroots _ hf
  | @parent f p frame _ hframe hp ih =>
    have hlt : f < w.size := (Array.getElem?_eq_some_iff.1 hframe).1
    exact (Law.within R base).frame_mono (h.parent ih hframe hp) (Nat.le_of_lt hlt)
  | captured _ hframe hs hg ih => exact Value.obeys_within.1 (h.slot ih hframe hs) _ hg

end

/-! ## Worlds that agree -/

/-- The worlds are the same in these frames and in all that is counted. -/
structure World.Alike (R : FrameId → Prop) (w w' : World) : Prop where
  size : w.size = w'.size
  frames (f : FrameId) : R f → w.store.frames[f]? = w'.store.frames[f]?
  functions : w.functions = w'.functions
  depth : w.depth = w'.depth
  draws : w.draws = w'.draws
  drawn : w.drawn = w'.drawn

/-- The worlds are the same as far as the law allows one to see, and have printed the same text
behind what was there before. -/
structure World.Agrees (L : Law) (before before' : String) (w w' : World) : Prop
    extends w.Alike (fun f => ∃ n, L.frame n f) w' where
  output : ∃ t, w.output = before ++ t ∧ w'.output = before' ++ t

/-- Worlds that are alike in some frames agree on these and on all that will be new. -/
theorem World.Alike.agrees {R : FrameId → Prop} {w w' : World} (h : w.Alike R w') :
    w.Agrees (.within R w.size) w.output w'.output w' := by
  refine { h with frames := fun f hf => ?_, output := ⟨"", ?_, ?_⟩ }
  · rcases Law.frame_within.1 hf with hf | hf
    · exact h.frames f hf
    · have hf' : w'.size ≤ f := h.size ▸ hf
      rw [Array.getElem?_eq_none hf, Array.getElem?_eq_none hf']
  · exact String.append_empty.symm
  · exact String.append_empty.symm

namespace World.Agrees

variable {L : Law} {t t' : String} {w w' : World} {f g : FrameId} {x : String} {v : Value}

theorem findFrom (h : w.Agrees L t t' w') (hw : w.Obeys L) (n : Nat) (hf : L.frame w.size f) :
    w.store.findFrom x n f = w'.store.findFrom x n f := by
  induction n generalizing f with
  | zero => rfl
  | succ n ih =>
    simp only [Store.findFrom, ← h.frames _ ⟨_, hf⟩]
    cases hframe : w.store.frames[f]? with
    | none => rfl
    | some frame =>
      have hlt : f < w.size := (Array.getElem?_eq_some_iff.1 hframe).1
      cases hp : frame.parent with
      | none => simp only [hp, Option.bind_eq_bind, Option.bind_some, Option.bind_none]
      | some p =>
        have hp := ih (L.frame_mono (hw.parent hf hframe hp) (Nat.le_of_lt hlt))
        simp only [*, Option.bind_eq_bind, Option.bind_some]

theorem find? (h : w.Agrees L t t' w') (hw : w.Obeys L) (hf : L.frame w.size f) :
    w.store.find? f x = w'.store.find? f x := by
  have hsize : w.store.frames.size = w'.store.frames.size := h.size
  rw [Store.find?, Store.find?, ← hsize]
  exact h.findFrom hw _ hf

theorem get? (h : w.Agrees L t t' w') (hw : w.Obeys L) (hf : L.frame w.size f) :
    w.store.get? f x = w'.store.get? f x := by
  rw [Store.get?, Store.get?, h.find? hw hf]

theorem resolve? (h : w.Agrees L t t' w') (hw : w.Obeys L) (hf : L.frame w.size f) :
    w.store.resolve? f x = w'.store.resolve? f x := by
  rw [Store.resolve?, Store.resolve?, h.find? hw hf]

theorem define (h : w.Agrees L t t' w') (g : FrameId) (x : String) (v : Value) :
    (w.define g x v).Agrees L t t' (w'.define g x v) := by
  refine { h with size := ?_, frames := fun f hf => ?_ }
  · rw [size_define, size_define, h.size]
  · simp only [World.define, Store.define, Array.getElem?_modify, h.frames f hf]

theorem newFrame (h : w.Agrees L t t' w') (p : Option FrameId) (ss : Slots) :
    (w.newFrame p ss).1 = (w'.newFrame p ss).1 ∧
      (w.newFrame p ss).2.Agrees L t t' (w'.newFrame p ss).2 := by
  have hsize : w.store.frames.size = w'.store.frames.size := h.size
  refine ⟨hsize, { h with size := ?_, frames := fun f hf => ?_ }⟩
  · rw [size_newFrame, size_newFrame, h.size]
  · simp only [World.newFrame, Store.newFrame, Array.getElem?_push, h.frames f hf, hsize]

theorem obeys (h : w.Agrees L t t' w') (hw : w.Obeys L) : w'.Obeys L := by
  obtain ⟨hbase, hparent, hslot⟩ := hw
  rw [h.size] at hbase hparent hslot
  refine ⟨hbase, fun hf hframe => ?_, fun hf hframe => ?_⟩
  · exact hparent hf ((h.frames _ ⟨_, hf⟩).trans hframe)
  · exact hslot hf ((h.frames _ ⟨_, hf⟩).trans hframe)

theorem print (h : w.Agrees L t t' w') (s : String) :
    (w.print s).Agrees L t t' (w'.print s) := by
  obtain ⟨u, hu, hu'⟩ := h.output
  refine { h with output := ⟨u ++ s, ?_, ?_⟩ }
  · rw [World.print, hu, String.append_assoc]
  · rw [World.print, hu', String.append_assoc]

end World.Agrees

/-! ## Runs side by side -/

namespace Machine

/-- The machines are about to do the same, in worlds that agree. -/
structure Twins (L : Law) (before before' : String) (m m' : Machine) : Prop where
  control : m.control = m'.control
  stack : m.stack = m'.stack
  world : m.world.Agrees L before before' m'.world

section

variable {L : Law} {limit : Option Nat} {t t' : String} {c : Control} {f : FrameId} {p : Pending}
  {k : List Pending} {w w' : World}

theorem twins_items (h : w.Agrees L t t' w') (before : List Value) (after : List Expr) :
    Twins L t t' (items before after f k w) (items before after f k w') := by
  cases after <;> exact ⟨rfl, rfl, h⟩

theorem twins_entries (h : w.Agrees L t t' w') (before : Entries Value)
    (after : List (Expr × Expr)) :
    Twins L t t' (entries before after f k w) (entries before after f k w') := by
  cases after <;> exact ⟨rfl, rfl, h⟩

theorem twins_arguments (h : w.Agrees L t t' w') (callee : Value) (before : List Value)
    (after : List Expr) :
    Twins L t t' (arguments callee before after f k w) (arguments callee before after f k w') := by
  cases after <;> exact ⟨rfl, rfl, h⟩

theorem twins_pass (h : w.Agrees L t t' w') (x : String) (after : List Value) (body : Block)
    (result : Value) :
    Twins L t t' (forPass x after body f result k w) (forPass x after body f result k w') := by
  cases after with
  | nil => exact ⟨rfl, rfl, h⟩
  | cons v vs =>
    obtain ⟨hg, hw⟩ := h.newFrame (some f) (.ofList [(x, v)])
    exact ⟨congrArg (Control.block body) hg, rfl, hw⟩

theorem twins_evaluate (h : w.Agrees L t t' w') (hw : w.Obeys L) (hf : L.frame w.size f)
    (e : Expr) : Twins L t t' (evaluate e f k w) (evaluate e f k w') := by
  cases e with
  | ident x =>
    simp only [evaluate, ← h.get? hw hf]
    split
    · exact ⟨rfl, rfl, h⟩
    · split <;> exact ⟨rfl, rfl, h⟩
  | array es => exact twins_items h [] es
  | hash es => exact twins_entries h [] es
  | function xs b =>
    refine ⟨?_, rfl, { h with functions := congrArg (· + 1) h.functions }⟩
    simp only [evaluate, World.newFunction, h.functions]
  | _ => exact ⟨rfl, rfl, h⟩

theorem twins_builtin (h : w.Agrees L t t' w') (b : Builtin) (vs : List Value) :
    (b.call vs w).1 = (b.call vs w').1 ∧ (b.call vs w).2.Agrees L t t' (b.call vs w').2 := by
  cases b with
  | puts => exact ⟨rfl, h.print _⟩
  | randint =>
    simp only [Builtin.call, World.draw, h.draws, h.drawn]
    split
    · split
      · exact ⟨rfl, h⟩
      · exact ⟨rfl, { h with draws := rfl, drawn := rfl }⟩
    all_goals exact ⟨rfl, h⟩
  | _ =>
    simp only [Builtin.call]
    (repeat' split) <;> exact ⟨rfl, h⟩

theorem twins_call (h : w.Agrees L t t' w') (callee : Value) (arguments : List Value) :
    Twins L t t' (call limit callee arguments k w) (call limit callee arguments k w') := by
  cases callee with
  | function c =>
    simp only [call, ← h.depth]
    split
    · exact ⟨rfl, rfl, h⟩
    · split
      · exact ⟨rfl, rfl, h⟩
      · obtain ⟨hg, hw⟩ := h.newFrame (some c.frame) (.ofList (c.parameters.zip arguments))
        exact ⟨congrArg (Control.block c.body) hg, rfl,
          { hw with depth := congrArg (· + 1) hw.depth }⟩
  | builtin b =>
    obtain ⟨hr, hw⟩ := twins_builtin h b arguments
    exact ⟨congrArg settleResult hr, rfl, hw⟩
  | _ => exact ⟨rfl, rfl, h⟩

theorem twins_resume (h : w.Agrees L t t' w') (hw : w.Obeys L) (result : Option Value)
    (hp : p.Obeys L w.size) :
    Twins L t t' (resume result p k w) (resume result p k w') := by
  cases p with
  | more b f => cases b <;> exact ⟨rfl, rfl, h⟩
  | define x f => exact ⟨rfl, rfl, h.define f x _⟩
  | item before after f => exact twins_items h _ after
  | entryKey before value after f =>
    simp only [resume]
    split <;> exact ⟨rfl, rfl, h⟩
  | entryValue before key after f => exact twins_entries h _ after
  | assign x f =>
    have hr := h.resolve? (x := x) hw hp
    cases hg : w.store.resolve? f x with
    | some g =>
      simp only [resume, World.assign, Store.assign, ← hr, hg]
      exact ⟨rfl, rfl, h.define g x _⟩
    | none =>
      simp only [resume, World.assign, Store.assign, ← hr, hg]
      exact ⟨rfl, rfl, h⟩
  | choose b d f =>
    simp only [resume]
    split
    · exact ⟨rfl, rfl, h⟩
    · split <;> exact ⟨rfl, rfl, h⟩
  | iterate x body f =>
    simp only [resume]
    split
    · exact twins_pass h x _ body .null
    · exact ⟨rfl, rfl, h⟩
  | forPass x after body f before => exact twins_pass h x after body _
  | test c body f before =>
    simp only [resume]
    split
    · obtain ⟨hg, hw⟩ := h.newFrame (some f) []
      exact ⟨congrArg (Control.block body) hg, rfl, hw⟩
    · exact ⟨rfl, rfl, h⟩
  | callee args f => exact twins_arguments h _ [] args
  | argument callee before after f => exact twins_arguments h callee _ after
  | call => exact ⟨rfl, rfl, { h with depth := congrArg (· - 1) h.depth }⟩
  | _ => exact ⟨rfl, rfl, h⟩

theorem twins_unwind (h : w.Agrees L t t' w') (s : Signal) (p : Pending) :
    Twins L t t' (unwind s p k w) (unwind s p k w') := by
  cases p with
  | forPass x after body f before =>
    cases s with
    | cont => exact twins_pass h x after body before
    | _ => exact ⟨rfl, rfl, h⟩
  | whilePass c body f before => cases s <;> exact ⟨rfl, rfl, h⟩
  | call =>
    have hw : World.Agrees L t t' { w with depth := w.depth - 1 } { w' with depth := w'.depth - 1 } :=
      { h with depth := congrArg (· - 1) h.depth }
    cases s <;> exact ⟨rfl, rfl, hw⟩
  | _ => exact ⟨rfl, rfl, h⟩

end

theorem Twins.step {L : Law} {t t' : String} {m m' : Machine} (limit : Option Nat)
    (h : Twins L t t' m m') (hm : m.Obeys L) : Twins L t t' (m.step limit) (m'.step limit) := by
  obtain ⟨c, k, w⟩ := m
  obtain ⟨c', k', w'⟩ := m'
  obtain ⟨hc, hk, hw⟩ := h
  obtain ⟨hobeys, hcontrol, hstack⟩ := hm
  dsimp only at hc hk hw
  subst hc hk
  cases c with
  | expr e f => exact twins_evaluate hw hobeys hcontrol.2 e
  | stmt s f => cases s <;> exact ⟨rfl, rfl, hw⟩
  | block b f => cases b <;> exact ⟨rfl, rfl, hw⟩
  | apply callee arguments => exact twins_call hw callee arguments
  | done result =>
    cases k with
    | nil => exact ⟨rfl, rfl, hw⟩
    | cons p k => exact twins_resume hw hobeys result (hstack p List.mem_cons_self)
  | raised s =>
    cases k with
    | nil => exact ⟨rfl, rfl, hw⟩
    | cons p k => exact twins_unwind hw s p

theorem Twins.after {L : Law} {t t' : String} {m m' : Machine} (limit : Option Nat)
    (h : Twins L t t' m m') (hm : m.Obeys L) (n : Nat) :
    Twins L t t' (m.after limit n) (m'.after limit n) := by
  induction n generalizing m m' with
  | zero => exact h
  | succ n ih => exact ih (h.step limit hm) (hm.step limit)

theorem Twins.obeys {L : Law} {t t' : String} {m m' : Machine} (h : Twins L t t' m m')
    (hm : m.Obeys L) : m'.Obeys L := by
  obtain ⟨hw, hc, hk⟩ := hm
  obtain ⟨hcontrol, hstack, hworld⟩ := h
  rw [hcontrol, hworld.size] at hc
  rw [hstack, hworld.size] at hk
  exact ⟨hworld.obeys hw, hc, hk⟩

theorem Twins.outcome? {L : Law} {t t' : String} {m m' : Machine} (h : Twins L t t' m m') :
    m.outcome? = m'.outcome? := by
  unfold Machine.outcome?
  rw [h.control, h.stack]

/-- When one of them comes to its end, so does the other, and to the same one. -/
theorem Twins.of_run {L : Law} {t t' : String} {m m' : Machine} {limit : Option Nat} {n : Nat}
    {o : Outcome} {u : World} (h : Twins L t t' m m') (hm : m.Obeys L)
    (hr : m.run limit n = some (o, u)) :
    ∃ u', m'.run limit n = some (o, u') ∧ u.Agrees L t t' u' := by
  have ha := h.after limit hm n
  have ho : (m'.after limit n).outcome? = some o := by
    rw [← ha.outcome?, run_eq_some.1 hr]
    exact outcome?_eq_some.2 rfl
  have hw := ha.world
  rw [run_eq_some.1 hr] at hw
  exact ⟨_, run_eq_some.2 (outcome?_eq_some.1 ho), hw⟩

/-! ## Frames that stay as they are -/

end Machine

/-- The event changes nothing in the frame. -/
def Event.Spares (g : FrameId) : Event → Prop
  | .set f _ _ | .reset f _ _ => f ≠ g
  | .frame _ _ | .call _ _ | .print _ => True

theorem Event.Spares.apply {g : FrameId} {e : Event} {w : World} (h : e.Spares g)
    (hg : g < w.size) :
    g < (e.apply w).size ∧ (e.apply w).store.frames[g]? = w.store.frames[g]? := by
  cases e with
  | set f x v | reset f x v =>
    refine ⟨(w.size_define f x v).symm ▸ hg, ?_⟩
    exact (Array.getElem?_modify ..).trans (if_neg h)
  | frame p ss =>
    refine ⟨(w.size_newFrame p ss).symm ▸ Nat.lt_succ_of_lt hg, ?_⟩
    exact (Array.getElem?_push ..).trans (if_neg (Nat.ne_of_lt hg))
  | call | print => exact ⟨hg, rfl⟩

theorem Event.spares_fold {g : FrameId} {es : List Event} {w : World}
    (h : ∀ e ∈ es, e.Spares g) (hg : g < w.size) :
    g < (es.foldl (fun w e => e.apply w) w).size ∧
      (es.foldl (fun w e => e.apply w) w).store.frames[g]? = w.store.frames[g]? := by
  induction es generalizing w with
  | nil => exact ⟨hg, rfl⟩
  | cons e es ih =>
    obtain ⟨he, hes⟩ := List.forall_mem_cons.1 h
    obtain ⟨hlt, heq⟩ := he.apply hg
    obtain ⟨hlt', heq'⟩ := ih hes hlt
    exact ⟨hlt', heq'.trans heq⟩

namespace Machine

theorem spares_pass {g f : FrameId} (x : String) (vs : List Value) :
    ∀ e ∈ passEvents x vs f, e.Spares g := by
  cases vs with
  | nil => exact List.forall_mem_nil _
  | cons => exact List.forall_mem_singleton.2 trivial

theorem spares_resume {L : Law} {g : FrameId} {p : Pending} {w : World} (hw : w.Obeys L)
    (hp : p.Obeys L w.size) (hg : ¬L.frame w.size g) (v : Value) :
    ∀ e ∈ resumeEvents v p w, e.Spares g := by
  cases p with
  | define x f => exact List.forall_mem_singleton.2 fun he => hg (he ▸ hp)
  | assign x f =>
    simp only [resumeEvents]
    split
    · rename_i f' hf
      exact List.forall_mem_singleton.2 fun he => hg (he ▸ hw.resolve? hp hf)
    · exact List.forall_mem_nil _
  | iterate x b f =>
    simp only [resumeEvents]
    split
    · exact spares_pass x _
    · exact List.forall_mem_nil _
  | forPass x vs b f r => exact spares_pass x vs
  | test c b f r =>
    simp only [resumeEvents]
    split
    · exact List.forall_mem_singleton.2 trivial
    · exact List.forall_mem_nil _
  | _ => exact List.forall_mem_nil _

/-- A machine changes only frames that it may use. -/
theorem Obeys.spares {L : Law} {m : Machine} {g : FrameId} (limit : Option Nat) (h : m.Obeys L)
    (hg : ¬L.frame m.world.size g) : ∀ e ∈ m.events limit, e.Spares g := by
  obtain ⟨c, k, w⟩ := m
  obtain ⟨hw, -, hk⟩ := h
  cases c with
  | apply callee arguments =>
    simp only [events, callEvents]
    refine List.forall_mem_cons.2 ⟨trivial, ?_⟩
    (repeat' split) <;> simp [Event.Spares]
  | done result =>
    cases k with
    | nil => exact List.forall_mem_nil _
    | cons p k => exact spares_resume hw (hk p List.mem_cons_self) hg _
  | raised s =>
    cases k with
    | nil => cases s <;> exact List.forall_mem_nil _
    | cons p k =>
      cases p with
      | forPass x vs b f r =>
        cases s with
        | cont => exact spares_pass x vs
        | _ => exact List.forall_mem_nil _
      | _ => cases s <;> exact List.forall_mem_nil _
  | _ => exact List.forall_mem_nil _

theorem Obeys.frame_step {L : Law} {m : Machine} {g : FrameId} (limit : Option Nat)
    (h : m.Obeys L) (hg : ¬L.frame m.world.size g) (hlt : g < m.world.size) :
    g < (m.step limit).world.size ∧
      (m.step limit).world.store.frames[g]? = m.world.store.frames[g]? := by
  have hstore := (step_events limit m).1
  rw [World.size, hstore]
  exact Event.spares_fold (h.spares limit hg) hlt

theorem Obeys.frame_after {L : Law} {m : Machine} {g : FrameId} (limit : Option Nat)
    (h : m.Obeys L) (hg : ∀ n, ¬L.frame n g) (hlt : g < m.world.size) (n : Nat) :
    (m.after limit n).world.store.frames[g]? = m.world.store.frames[g]? := by
  induction n generalizing m with
  | zero => rfl
  | succ n ih =>
    obtain ⟨hlt', heq⟩ := h.frame_step limit (hg _) hlt
    exact (ih (h.step limit) hlt').trans heq

theorem Obeys.frame_run {L : Law} {m : Machine} {g : FrameId} {limit : Option Nat} {n : Nat}
    {o : Outcome} {u : World} (h : m.Obeys L) (hg : ∀ n, ¬L.frame n g) (hlt : g < m.world.size)
    (hr : m.run limit n = some (o, u)) :
    u.store.frames[g]? = m.world.store.frames[g]? := by
  have ha := h.frame_after limit hg hlt n
  rwa [run_eq_some.1 hr] at ha

/-! ## What an evaluation sees and changes -/

/-- Two evaluations of the same in worlds that are alike as far as one gets from where they begin
come to the same end, if any, and print the same text. Afterwards the worlds are alike there and in
all new frames, the other frames are what they were, and from where the evaluations began or from
their result one gets to no other. -/
theorem run_local (limit : Option Nat) (n : Nat) (c : Control) (w w' : World)
    (h : w.Alike (w.store.Reaches c.Names) w') :
    ((run limit n ⟨c, [], w⟩).isSome ↔ (run limit n ⟨c, [], w'⟩).isSome) ∧
      ∀ o u, run limit n ⟨c, [], w⟩ = some (o, u) →
        ∃ u', run limit n ⟨c, [], w'⟩ = some (o, u') ∧
          (∃ t, u.output = w.output ++ t ∧ u'.output = w'.output ++ t) ∧
          u.Alike (fun g => w.store.Reaches c.Names g ∨ w.size ≤ g) u' ∧
          (∀ g, g < w.size → ¬w.store.Reaches c.Names g →
            u.store.frames[g]? = w.store.frames[g]? ∧
              u'.store.frames[g]? = w'.store.frames[g]?) ∧
          ∀ v ∈ [u, u'], ∀ g, v.store.Reaches (fun f => c.Names f ∨ o.control.Names f) g →
            w.store.Reaches c.Names g ∨ w.size ≤ g ∧ g < u.size := by
  have hm : Obeys (.within (w.store.Reaches c.Names) w.size) ⟨c, [], w⟩ :=
    ⟨w.obeys_within c.Names, Control.obeys_within.2 fun f hf => .inl (.root hf),
      List.forall_mem_nil _⟩
  have htwins : Twins _ w.output w'.output ⟨c, [], w⟩ ⟨c, [], w'⟩ := ⟨rfl, rfl, h.agrees⟩
  refine ⟨?_, fun o u hr => ?_⟩
  · rw [run_eq, run_eq, Option.isSome_map, Option.isSome_map, (htwins.after limit hm n).outcome?]
  · obtain ⟨u', hr', hu⟩ := htwins.of_run hm hr
    have hm' := htwins.obeys hm
    obtain ⟨hobeys, ho⟩ := hm.of_run hr
    refine ⟨u', hr', hu.output, ?_, fun g hlt hg => ?_, fun v hv g hg => ?_⟩
    · exact { hu with frames := fun g hg => hu.frames g (Law.frame_within.2 hg) }
    · -- An old frame that is out of reach is allowed at no time.
      have hspared := not_exists.1 (mt Law.frame_within.1 (not_or.2 ⟨hg, Nat.not_le.2 hlt⟩))
      exact ⟨hm.frame_run hspared hlt hr, hm'.frame_run hspared (h.size ▸ hlt) hr'⟩
    · have hv : v.Obeys (.within (w.store.Reaches c.Names) w.size) ∧ u.size = v.size := by
        rcases List.mem_cons.1 hv with rfl | hv
        · exact ⟨hobeys, rfl⟩
        · obtain rfl := List.mem_singleton.1 hv
          exact ⟨hu.obeys hobeys, hu.size⟩
      rw [hv.2] at ho ⊢
      refine hv.1.of_reaches (fun f hf => ?_) hg
      rcases hf with hf | hf
      · exact .inl (.root hf)
      · exact Control.obeys_within.1 ho f hf

/-- Calls a function of frame 0 while frame 1 has a variable of the same name with value `n`. -/
def shadowed (n : Int64) : Machine :=
  ⟨.apply (.function ⟨0, [], [.expr (.ident "x")], 0⟩) [], [],
    { World.fresh fun _ => 0 with
      store := ⟨#[⟨none, [("x", .integer 1)]⟩, ⟨some 0, [("x", .integer n)]⟩]⟩ }⟩

theorem run_local_shadowed :
    (shadowed 2).world.Alike ((shadowed 2).world.store.Reaches (shadowed 2).control.Names)
        (shadowed 3).world ∧
      ((shadowed 3).run none 9).map (·.1.value) = some (.integer 1) := by
  have hroot (f : FrameId) (hf : (shadowed 2).control.Names f) : f = 0 := by
    rcases hf with ⟨c, hc, rfl⟩ | ⟨v, hv, -⟩
    · obtain rfl := Value.function.inj (List.mem_singleton.1 hc)
      rfl
    · nomatch hv
  have hzero (g : FrameId)
      (hg : (shadowed 2).world.store.Reaches (shadowed 2).control.Names g) : g = 0 := by
    induction hg with
    | root hf => exact hroot _ hf
    | parent _ hframe hp ih =>
      subst ih
      cases hframe
      nomatch hp
    | captured _ hframe hs hg ih =>
      subst ih
      cases hframe
      obtain rfl := List.mem_singleton.1 hs
      obtain ⟨c, hc, -⟩ := hg
      nomatch List.mem_singleton.1 hc
  have halike : (shadowed 2).world.Alike
      ((shadowed 2).world.store.Reaches (shadowed 2).control.Names) (shadowed 3).world :=
    ⟨rfl, fun g hg => by rw [hzero g hg]; rfl, rfl, rfl, rfl, rfl⟩
  obtain ⟨u, hu, -⟩ := (run_local none 9 _ _ _ halike).2 (.ok (some (.integer 1))) _ rfl
  exact ⟨halike, congrArg (Option.map (·.1.value)) hu⟩

end Machine

end MonkeyLang
