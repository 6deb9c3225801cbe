/-
The frames over a whole session. A new frame is put below one that is there,
and a function keeps the frame that it was made in, so every frame that
anything names exists, and parents are older than their children. Frames are
never lost, nor are the names in them. Hence a walk upwards from any frame
comes to an end, whatever programs have run.
-/
import MonkeyLang.Proofs.Binding
import MonkeyLang.Proofs.Chains
import MonkeyLang.Proofs.Lexing
import MonkeyLang.Proofs.Locality
import MonkeyLang.Proofs.Series

namespace MonkeyLang

/-! ## Walks -/

namespace Store

/-- To look a name up from a frame is to visit these frames, each the parent of the one before. The
last is the first that has a slot for the name, or else one without a parent. -/
inductive Walk (s : Store) (x : String) :
    FrameId → List FrameId → Option (FrameId × Value) → Prop
  | found {f : FrameId} {frame : Frame} {v : Value} : s.frames[f]? = some frame →
      frame.slots.get? x = some v → Walk s x f [f] (some (f, v))
  | root {f : FrameId} {frame : Frame} : s.frames[f]? = some frame →
      frame.slots.get? x = none → frame.parent = none → Walk s x f [f] none
  | up {f p : FrameId} {frame : Frame} {l : List FrameId} {r : Option (FrameId × Value)} :
      s.frames[f]? = some frame → frame.slots.get? x = none → frame.parent = some p →
      Walk s x p l r → Walk s x f (f :: l) r

variable {s : Store} {x : String} {f : FrameId} {l : List FrameId} {r : Option (FrameId × Value)}

/-- Looking up comes to what the walk comes to, given as many steps as the walk has frames. -/
theorem Walk.findFrom_eq {n : Nat} (h : s.Walk x f l r) (hn : l.length ≤ n) :
    s.findFrom x n f = r := by
  induction h generalizing n with
  | found hf hx =>
    obtain ⟨n, rfl⟩ := Nat.exists_eq_add_one.2 hn
    simp only [findFrom, hf, hx, Option.bind_eq_bind, Option.bind_some]
  | root hf hx hp =>
    obtain ⟨n, rfl⟩ := Nat.exists_eq_add_one.2 hn
    simp only [findFrom, hf, hx, hp, Option.bind_eq_bind, Option.bind_some, Option.bind_none]
  | up hf hx hp _ ih =>
    obtain ⟨n, rfl⟩ := Nat.exists_eq_add_one.2 (Nat.zero_lt_of_lt hn)
    simp only [findFrom, hf, hx, hp, Option.bind_eq_bind, Option.bind_some]
    exact ih (Nat.le_of_succ_le_succ hn)

/-- A walk goes along the chain, as far as it has to. -/
theorem Chain.exists_walk (hl : s.Chain f l) (x : String) :
    ∃ visited r, s.Walk x f visited r ∧ visited <+: l := by
  induction hl with
  | @root f frame hf hp =>
    cases hx : frame.slots.get? x with
    | some v => exact ⟨[f], _, .found hf hx, List.prefix_refl _⟩
    | none => exact ⟨[f], _, .root hf hx hp, List.prefix_refl _⟩
  | @under f p frame l hf hp _ ih =>
    cases hx : frame.slots.get? x with
    | some v => exact ⟨[f], _, .found hf hx, List.prefix_append [f] l⟩
    | none =>
      obtain ⟨visited, r, hw, hpre⟩ := ih
      exact ⟨f :: visited, r, .up hf hx hp hw, (List.prefix_cons_inj f).2 hpre⟩

/-- Without circles every walk ends and comes to no frame twice, and it tells what looking up and
assigning do. -/
theorem Acyclic.exists_walk (hs : s.Acyclic) (hf : f < s.frames.size) (x : String) :
    ∃ visited r, s.Walk x f visited r ∧ visited.Nodup ∧ s.find? f x = r := by
  obtain ⟨l, hl⟩ := hs.exists_chain hf
  obtain ⟨visited, r, hw, hpre⟩ := hl.exists_walk x
  have hshort : visited.length ≤ s.frames.size := hpre.length_le.trans hl.length_le
  exact ⟨visited, r, hw, hpre.sublist.nodup hl.nodup, hw.findFrom_eq hshort⟩

/-- Where parents come before their children there are no circles. -/
theorem acyclic_of_lt (hs : ∀ f p, s.IsParent f p → p < f) : s.Acyclic := by
  constructor
  · intro f p hp
    obtain ⟨frame, hf, -⟩ := id hp
    exact (hs f p hp).trans (Array.getElem?_eq_some_iff.1 hf).1
  · intro f hcycle
    have hlt : ∀ g, Relation.TransGen s.IsParent f g → g < f := by
      intro g hg
      induction hg with
      | single hp => exact hs _ _ hp
      | tail _ hp ih => exact (hs _ _ hp).trans ih
    exact Nat.lt_irrefl f (hlt f hcycle)

/-! ## Growth -/

/-- All frames of `s` are in `t`, with their parents and at least their names. -/
def Grows (s t : Store) : Prop :=
  ∀ (f : FrameId) (old : Frame), s.frames[f]? = some old →
    ∃ new : Frame, t.frames[f]? = some new ∧ new.parent = old.parent ∧
      ∀ x, old.Binds x → new.Binds x

variable {t u : Store}

theorem Grows.refl (s : Store) : s.Grows s := fun _ old h => ⟨old, h, rfl, fun _ hx => hx⟩

theorem Grows.trans (hst : s.Grows t) (htu : t.Grows u) : s.Grows u := by
  intro f old hold
  obtain ⟨mid, hmid, hpmid, hxmid⟩ := hst f old hold
  obtain ⟨new, hnew, hpnew, hxnew⟩ := htu f mid hmid
  exact ⟨new, hnew, hpnew.trans hpmid, fun x hx => hxnew x (hxmid x hx)⟩

theorem Grows.lt (hst : s.Grows t) (hf : f < s.frames.size) : f < t.frames.size := by
  obtain ⟨new, hnew, -⟩ := hst f _ (Array.getElem?_eq_getElem hf)
  exact (Array.getElem?_eq_some_iff.1 hnew).1

theorem Keeps.grows (hst : s.Keeps t) : s.Grows t :=
  fun f old hold => ⟨old, hst f old hold, rfl, fun _ hx => hx⟩

end Store

theorem World.Becomes.grows {S : Scope} {w u : World} (h : World.Becomes S w u)
    (hw : w.size ≤ S.base) : w.store.Grows u.store := by
  intro f old hold
  have hf : f < w.size := (Array.getElem?_eq_some_iff.1 hold).1
  obtain ⟨new, hnew, hbecomes⟩ := h f old (hf.trans_le hw) hold
  exact ⟨new, hnew, hbecomes.parent, fun _ hx => hbecomes.kept hx⟩

/-- Nothing that can happen takes a frame or a name away. -/
theorem Event.grows (e : Event) (w : World) : w.store.Grows (e.apply w).store := by
  cases e with
  | set f x v | reset f x v =>
    -- The scope in which just this name is bound in just this frame.
    let S : Scope := ⟨w.size, f, [x], fun _ => False⟩
    have hbecomes : World.Becomes S w (w.define f x v) :=
      World.becomes_define fun _ _ _ => .inl ⟨rfl, List.mem_singleton_self x⟩
    exact hbecomes.grows (Nat.le_refl _)
  | frame p ss => exact (w.store.keeps_newFrame (some p) ss).grows
  | call | print => exact .refl w.store

theorem Event.grows_foldl (es : List Event) (w : World) :
    w.store.Grows (es.foldl (fun w e => e.apply w) w).store := by
  induction es generalizing w with
  | nil => exact .refl w.store
  | cons e es ih => exact (e.grows w).trans (ih (e.apply w))

theorem Machine.grows_step (limit : Option Nat) (m : Machine) :
    m.world.store.Grows (m.step limit).world.store := by
  rw [(m.step_events limit).1]
  exact Event.grows_foldl _ _

/-! ## Frames that exist -/

/-- The frame in which the code that waits stands. -/
def Pending.frame? : Pending → Option FrameId
  | .more _ f | .define _ f | .item _ _ f | .entryKey _ _ _ f | .entryValue _ _ _ f
  | .binaryLeft _ _ f | .assign _ f | .choose _ _ f | .iterate _ _ f | .forPass _ _ _ f _
  | .test _ _ f _ | .whilePass _ _ f _ | .callee _ f | .argument _ _ _ f | .collection _ f => some f
  | .ret | .unary _ | .binaryRight _ _ | .chosen | .call | .key _ => none

/-- The values that wait. -/
def Pending.values : Pending → List Value
  | .item before _ _ => before
  | .entryKey before _ _ _ => [.hash before]
  | .entryValue before k _ _ => [.hash before, k.toValue]
  | .binaryRight v _ | .key v => [v]
  | .forPass _ after _ _ result => result :: after
  | .test _ _ _ result | .whilePass _ _ _ result => [result]
  | .argument c before _ _ => c :: before
  | .more _ _ | .define _ _ | .ret | .unary _ | .binaryLeft _ _ _ | .assign _ _ | .choose _ _ _
  | .chosen | .iterate _ _ _ | .callee _ _ | .call | .collection _ _ => []

/-- What waits will go on in the frame, or keeps a function that was made there. -/
def Pending.Names (p : Pending) (f : FrameId) : Prop :=
  p.frame? = some f ∨ ∃ v ∈ p.values, Captures v.within f

/-- Parents are older than their children, and wherever there is code or a function, the frame of
it exists. -/
structure Machine.WellFormed (m : Machine) : Prop where
  parent {f p : FrameId} : m.world.store.IsParent f p → p < f
  slot {f g : FrameId} {frame : Frame} {slot : String × Value} :
    m.world.store.frames[f]? = some frame → slot ∈ frame.slots → Captures slot.2.within g →
      g < m.world.size
  control {f : FrameId} : m.control.Names f → f < m.world.size
  stack {p : Pending} {f : FrameId} : p ∈ m.stack → p.Names f → f < m.world.size

theorem Machine.WellFormed.acyclic {m : Machine} (h : m.WellFormed) : m.world.store.Acyclic :=
  Store.acyclic_of_lt fun _ _ hp => h.parent hp

/-- The frames that may be used are those that there are. -/
abbrev Law.existing : Law := .within (fun _ => False) 0

section

variable {L : Law} {n : Nat} {f : FrameId} {p : Pending} {v : Value} {m : Machine}

theorem Law.frame_existing : Law.existing.frame n f ↔ f < n := by
  simp [Law.within]

theorem Pending.Obeys.frame? (h : p.Obeys L n) (hf : p.frame? = some f) : L.frame n f := by
  cases p <;> cases hf
  case define | assign => exact h
  case more | binaryLeft | iterate | callee | collection => exact h.2
  case item | choose => exact h.2.2
  case forPass | test | whilePass => exact h.2.2.1
  case entryKey | entryValue | argument => exact h.2.2.2

theorem Key.within_toValue (k : Key) : k.toValue.within = [k.toValue] := by
  cases k <;> rfl

theorem Pending.Obeys.values (h : p.Obeys L n) : ∀ v ∈ p.values, v.Obeys L n := by
  cases p with
  | item => exact h.1
  | entryKey => exact List.forall_mem_singleton.2 h.1
  | entryValue before k =>
    have hkey := Value.obeys_of_admits k.within_toValue h.2.1
    exact List.forall_mem_cons.2 ⟨h.1, List.forall_mem_singleton.2 hkey⟩
  | binaryRight | key => exact List.forall_mem_singleton.2 h
  | forPass => exact List.forall_mem_cons.2 ⟨h.2.2.2, h.1⟩
  | test | whilePass => exact List.forall_mem_singleton.2 h.2.2.2
  | argument => exact List.forall_mem_cons.2 ⟨h.1, h.2.1⟩
  | _ => exact List.forall_mem_nil _

theorem Value.Obeys.captures (h : v.Obeys .existing n) (hf : Captures v.within f) : f < n :=
  Law.frame_existing.1 (Value.obeys_within.1 h f hf)

theorem Machine.Obeys.wellFormed (h : m.Obeys .existing) : m.WellFormed := by
  have hframe {f : FrameId} {frame : Frame} (hf : m.world.store.frames[f]? = some frame) :
      Law.existing.frame m.world.size f :=
    Law.frame_existing.2 (Array.getElem?_eq_some_iff.1 hf).1
  constructor
  · rintro f p ⟨frame, hf, hp⟩
    exact Law.frame_existing.1 (h.world.parent (hframe hf) hf hp)
  · exact fun hf hs hg => (h.world.slot (hframe hf) hf hs).captures hg
  · exact fun hf => Law.frame_existing.1 (Control.obeys_within.1 h.control _ hf)
  · rintro p f hp (hf | ⟨v, hv, hf⟩)
    · exact Law.frame_existing.1 ((h.stack p hp).frame? hf)
    · exact ((h.stack p hp).values v hv).captures hf

end

/-! ## Sessions -/

namespace Session

/-- The machine of a session goes on: it takes a step, or it has come to an end and the next program
is loaded. Before that, text may be printed and taken off. -/
inductive Advances (limit : Option Nat) (globals : FrameId) : Machine → Machine → Prop
  | step (m : Machine) : Advances limit globals m (m.step limit)
  | load {m : Machine} {o : Machine.Outcome} (p : Program) (text : String) :
      m.outcome? = some o →
      Advances limit globals m (.load p globals { m.world with output := text })

/-- All that a session comes to if it begins without variables and runs one program after
another. -/
def Reaches (limit : Option Nat) (draws : Nat → Nat) (m : Machine) : Prop :=
  let s := fresh draws
  ∃ p, Relation.ReflTransGen (Advances limit s.globals) (.load p s.globals s.world) m

section

variable {limit : Option Nat} {draws : Nat → Nat} {globals : FrameId} {m m' : Machine} {s : Session}

theorem Advances.grows (h : Advances limit globals m m') :
    m.world.store.Grows m'.world.store := by
  cases h with
  | step => exact m.grows_step limit
  | load p text ho => exact .refl _

theorem grows_of_reflTransGen (h : Relation.ReflTransGen (Advances limit globals) m m') :
    m.world.store.Grows m'.world.store := by
  induction h with
  | refl => exact .refl _
  | tail _ hstep ih => exact ih.trans hstep.grows

theorem obeys_load {p : Program} {f : FrameId} {w : World} (hw : w.Obeys .existing)
    (hf : f < w.size) : (Machine.load p f w).Obeys .existing :=
  ⟨hw, ⟨Block.obeys_within p, Law.frame_existing.2 hf⟩, List.forall_mem_nil _⟩

theorem Advances.obeys (h : Advances limit globals m m') (hm : m.Obeys .existing)
    (hg : globals < m.world.size) : m'.Obeys .existing := by
  cases h with
  | step => exact hm.step limit
  | load p text ho => exact obeys_load (hm.world.of_store rfl) hg

theorem Reaches.obeys (h : Reaches limit draws m) : m.Obeys .existing := by
  obtain ⟨p, h⟩ := h
  have hfresh : (fresh draws).Obeys .existing := obeys_fresh rfl draws
  have hglobals : (fresh draws).globals < (fresh draws).world.size := Nat.zero_lt_one
  induction h with
  | refl => exact obeys_load hfresh.world hglobals
  | tail hpath hstep ih => exact hstep.obeys ih ((grows_of_reflTransGen hpath).lt hglobals)

theorem Reaches.after (h : Reaches limit draws m) (i : Nat) :
    Reaches limit draws (m.after limit i) := by
  induction i generalizing m with
  | zero => exact h
  | succ i ih =>
    obtain ⟨p, h⟩ := h
    exact ih ⟨p, h.tail (.step m)⟩

/-- Whatever program comes next, the session is on its way. -/
def Ready (draws : Nat → Nat) (s : Session) : Prop :=
  s.globals = (fresh draws).globals ∧
    ∀ p, Reaches (some callLimit) draws (.load p s.globals s.world)

/-- A run leaves the session where the next one can begin. -/
theorem Ready.run {n : Nat} {source : String} {a : Answer} {t : Session} (hs : s.Ready draws)
    (h : s.run n source = some (a, t)) : t.Ready draws := by
  simp only [Session.run] at h
  split at h
  · obtain ⟨⟨v, t'⟩, ht, he⟩ := Option.map_eq_some_iff.1 h
    cases he
    obtain ⟨⟨v', u⟩, hu, he⟩ := Option.map_eq_some_iff.1 ht
    cases he
    obtain ⟨⟨o, u'⟩, hrun, he⟩ := Option.map_eq_some_iff.1 hu
    cases he
    refine ⟨hs.1, fun p => ?_⟩
    obtain ⟨p₀, hend⟩ := (hs.2 (parse source).program).after n
    rw [Machine.run_eq_some.1 hrun] at hend
    exact ⟨p₀, hs.1 ▸ hend.tail (.load p u.output (Machine.outcome?_eq_some.2 rfl))⟩
  · cases h
    exact hs

end

/-- The frames stay well formed. In all that a session comes to, parents are older than their
children, and wherever there is code or a function, its frame exists; later on every frame is still
there, with the same parent and with all its names. So to look a name up from a frame, or to assign
to it, is a walk that ends, meets no frame twice and misses none. The runs of sources are made of
such steps. -/
theorem frames_wellFormed (limit : Option Nat) (draws : Nat → Nat) :
    (∀ m, Reaches limit draws m →
      m.WellFormed ∧
      (∀ m', Relation.ReflTransGen (Advances limit (fresh draws).globals) m m' →
        m.world.store.Grows m'.world.store) ∧
      ∀ f x, f < m.world.size → ∃ visited found,
        m.world.store.Walk x f visited found ∧ visited.Nodup ∧
          m.world.store.get? f x = found.map (·.2) ∧
          ∀ v, m.world.store.assign f x v =
            match found with
            | some (g, _) => (true, m.world.store.define g x v)
            | none => (false, m.world.store)) ∧
    ∀ n sources answers s,
      runAll (fun source => Session.run n source) sources (fresh draws) = some (answers, s) →
      ∀ p i, Reaches (some callLimit) draws
        ((Machine.load p s.globals s.world).after (some callLimit) i) := by
  constructor
  · intro m hm
    have hwf : m.WellFormed := hm.obeys.wellFormed
    refine ⟨hwf, fun m' hlater => grows_of_reflTransGen hlater, fun f x hf => ?_⟩
    obtain ⟨visited, found, hwalk, hnodup, hfind⟩ := hwf.acyclic.exists_walk hf x
    refine ⟨visited, found, hwalk, hnodup, by rw [Store.get?, hfind], fun v => ?_⟩
    rw [Store.assign, Store.resolve?, hfind]
    cases found <;> rfl
  · intro n sources answers s h p i
    have hfresh : (fresh draws).Ready draws := ⟨rfl, fun p => ⟨p, .refl⟩⟩
    have hrun : ∀ source ∈ sources, ∀ (s : Session) a t, s.Ready draws →
        s.run n source = some (a, t) → t.Ready draws ∧ True :=
      fun _ _ _ _ _ hs hr => ⟨hs.run hr, trivial⟩
    exact ((runAll_keeps hrun hfresh h).1.2 p).after i

/-- A function that makes functions, and one that it made. -/
def adderSource : String := "let add = fn(x) { fn(y) { x + y } }; let addTwo = add(2);"

def adder : Program :=
  [.define "add" (.function ["x"]
    [.expr (.function ["y"] [.expr (.binary (.ident "x") .add (.ident "y"))])]),
   .define "addTwo" (.call (.ident "add") [.integer 2])]

theorem parse_adderSource :
    (parse adderSource).program = adder ∧ (parse adderSource).errors = [] := by
  have htokens : tokens adderSource = _ := tokens_ofList _
  rw [parse, htokens]
  decide +kernel

/-- In the next run, the function that was made looks for the variable of the call that made it. -/
theorem frames_wellFormed_adder :
    ∃ answers s, runAll (fun source => Session.run 20 source) [adderSource] (fresh fun _ => 0) =
        some (answers, s) ∧
      let calls : Program := [.expr (.call (.ident "addTwo") [.integer 3])]
      let m := (Machine.load calls s.globals s.world).after (some callLimit) 11
      m.control = .expr (.ident "x") 2 ∧ m.WellFormed ∧
        m.world.store.Grows (m.step (some callLimit)).world.store ∧
        ∃ visited found, m.world.store.Walk "x" 2 visited found ∧ visited.Nodup ∧
          found.map (·.2) = some (.integer 2) := by
  obtain ⟨v, s, hprogram, hcontrol, hlt, hx⟩ :
      ∃ v s, (fresh fun _ => 0).runProgram 20 adder = some (v, s) ∧
        let calls : Program := [.expr (.call (.ident "addTwo") [.integer 3])]
        let m := (Machine.load calls s.globals s.world).after (some callLimit) 11
        m.control = .expr (.ident "x") 2 ∧ 2 < m.world.size ∧
          m.world.store.get? 2 "x" = some (.integer 2) :=
    ⟨_, _, rfl, rfl, by decide, rfl⟩
  obtain ⟨hparse, herrors⟩ := parse_adderSource
  have hrun : Session.run 20 adderSource (fresh fun _ => 0) = some (.value v, s) := by
    simp only [Session.run, hparse, herrors, hprogram]
    rfl
  have hall : runAll (fun source => Session.run 20 source) [adderSource] (fresh fun _ => 0) =
      some ([.value v], s) := by
    rw [runAll_cons hrun]
    rfl
  obtain ⟨hstates, hsteps⟩ := frames_wellFormed (some callLimit) fun _ => 0
  obtain ⟨hwf, hlater, hwalks⟩ := hstates _ (hsteps 20 [adderSource] _ s hall _ 11)
  obtain ⟨visited, found, hwalk, hnodup, hget, -⟩ := hwalks 2 "x" hlt
  exact ⟨_, s, hall, hcontrol, hwf, hlater _ (.single (.step _)), visited, found, hwalk, hnodup,
    hget.symm.trans hx⟩

end Session

end MonkeyLang
