/-
A `for` and the `while` that counts. A loop over an array does the same as one
that counts up to the length of the array and reads the item at its beginning:
pass by pass, the frames of the passes and all else that there is agree, apart
from the counter.
-/
import Mathlib.Algebra.Group.Nat.Defs
import MonkeyLang.Program.Parser
import MonkeyLang.Proofs.Chains
import MonkeyLang.Proofs.Unseen

namespace MonkeyLang

/-- `i < len(a)` -/
def counterTest (a i : String) : Expr :=
  .binary (.ident i) .less (.call (.ident "len") [.ident a])

/-- `let x = a[i]; i = i + 1;` and the body. -/
def counterBody (a i x : String) (body : Block) : Block :=
  .define x (.index (.ident a) (.ident i)) ::
    .expr (.assign i (.binary (.ident i) .add (.integer 1))) :: body

/-- The `while` that stands for `for (x in a)`, with `i` as its counter. -/
def counting (a i x : String) (body : Block) : Expr :=
  .whileDo (counterTest a i) (counterBody a i x body)

example : (parse "while (i < len(a)) { let x = a[i]; i = i + 1; puts(x); }").program =
    [.expr (counting "a" "i" "x" [.expr (.call (.ident "puts") [.ident "x"])])] := by
  decide +kernel

/-! ## Variables -/

/-- From the frame upwards no frame has a slot for the name. -/
inductive Store.Unbound (s : Store) (x : String) : FrameId → Prop
  | root {f : FrameId} {frame : Frame} : s.frames[f]? = some frame → frame.slots.get? x = none →
      frame.parent = none → Unbound s x f
  | under {f p : FrameId} {frame : Frame} : s.frames[f]? = some frame →
      frame.slots.get? x = none → frame.parent = some p → Unbound s x p → Unbound s x f

namespace Store

variable {s t : Store} {f g : FrameId} {x : String} {v : Value} {frame frame' : Frame}

theorem find?_parent (hg : s.frames[g]? = some frame') (hp : frame'.parent = some f)
    (hx' : frame'.slots.get? x = none) (hne : f ≠ g) (hf : s.frames[f]? = some frame)
    (hx : frame.slots.get? x = some v) : s.find? g x = some (f, v) := by
  have hlt : f < s.frames.size := (Array.getElem?_eq_some_iff.1 hf).1
  have hlt' : g < s.frames.size := (Array.getElem?_eq_some_iff.1 hg).1
  obtain ⟨n, hn⟩ : ∃ n, s.frames.size = n + 2 := by
    have htwo : 1 < s.frames.size := by
      rcases Nat.lt_or_gt_of_ne hne with h | h
      · exact Nat.lt_of_le_of_lt (Nat.succ_le_of_lt (Nat.zero_lt_of_lt h)) hlt'
      · exact Nat.lt_of_le_of_lt (Nat.succ_le_of_lt (Nat.zero_lt_of_lt h)) hlt
    exact ⟨s.frames.size - 2, by omega⟩
  simp only [find?, hn, findFrom, hg, hx', hp, hf, hx, Option.bind_eq_bind, Option.bind_some]

theorem Unbound.findFrom (h : s.Unbound x f) (n : Nat) : s.findFrom x n f = none := by
  induction h generalizing n with
  | root hf hx hp =>
    cases n with
    | zero => rfl
    | succ n => simp only [Store.findFrom, hf, hx, hp, Option.bind_eq_bind, Option.bind_some,
        Option.bind_none]
  | under hf hx hp _ ih =>
    cases n with
    | zero => rfl
    | succ n => simp only [Store.findFrom, hf, hx, hp, Option.bind_eq_bind, Option.bind_some, ih]

/-- Frames may change if they keep their parents and do not gain the name. -/
theorem Unbound.mono (h : s.Unbound x f)
    (hst : ∀ (g : FrameId) (old : Frame), s.frames[g]? = some old → old.slots.get? x = none →
      ∃ new : Frame, t.frames[g]? = some new ∧ new.parent = old.parent ∧
        new.slots.get? x = none) :
    t.Unbound x f := by
  induction h with
  | root hf hx hp =>
    obtain ⟨new, hnew, hparent, hx'⟩ := hst _ _ hf hx
    exact .root hnew hx' (hparent.trans hp)
  | under hf hx hp _ ih =>
    obtain ⟨new, hnew, hparent, hx'⟩ := hst _ _ hf hx
    exact .under hnew hx' (hparent.trans hp) ih

end Store

/-! ## Arithmetic -/

theorem counter_lt {k n : Nat} (hk : k ≤ n) (hn : n < 2 ^ 63) :
    decide (Int64.ofNat k < Int64.ofNat n) = decide (k < n) := by
  have hk : (Int64.ofNat k).toInt = k := Int64.toInt_ofNat_of_lt (by omega)
  have hn : (Int64.ofNat n).toInt = n := Int64.toInt_ofNat_of_lt (by omega)
  rw [decide_eq_decide, Int64.lt_iff_toInt_lt, hk, hn]
  omega

theorem counter_member {xs : List Value} {k : Nat} {v : Value} (hk : k < 2 ^ 63)
    (hv : xs[k]? = some v) :
    (Value.array xs).member (.integer (Int64.ofNat k)) = .ok v := by
  have hk : (Int64.ofNat k).toInt = k := Int64.toInt_ofNat_of_lt hk
  have hneg : ¬Int64.ofNat k < 0 := by
    rw [Int64.lt_iff_toInt_lt, hk]
    simp
  simp only [Value.member, if_neg hneg, hk, Int.toNat_natCast, hv, Option.getD_some]

theorem counter_succ (k : Nat) : Int64.ofNat k + 1 = Int64.ofNat (k + 1) :=
  (Int64.ofNat_add k 1).symm

/-! ## Passes -/

/-- The name is read or assigned to. -/
def Expr.Mentions (e : Expr) (x : String) : Prop := e = .ident x ∨ ∃ d, e = .assign x d

/-- The expression stands in the body of a function that a variable holds. -/
def World.HasCode (w : World) (e : Expr) : Prop :=
  ∃ (g : FrameId) (frame : Frame) (s : String × Value) (c : Closure),
    w.store.frames[g]? = some frame ∧ s ∈ frame.slots ∧ .function c ∈ s.2.within ∧
      e ∈ Stmt.withinList c.body

/-- In frame `f` the body can be run for each item of `a` with `i` as the counter. Then the names
`a`, `i` and `len` are different, since they are bound to different things. -/
structure Counter (w : World) (f : FrameId) (a i x : String) (xs : List Value) (body : Block) :
    Prop where
  frame : ∃ frame, w.store.frames[f]? = some frame ∧ frame.slots.get? a = some (.array xs) ∧
    frame.slots.get? i = some (.integer 0)
  len : w.store.Unbound "len" f
  short : xs.length < 2 ^ 63
  items : ∀ v ∈ xs, ¬v.IsSignal
  name : i ≠ x
  nonempty : body ≠ []
  code : ∀ e ∈ Stmt.withinList body, ¬e.Mentions a ∧ ¬e.Mentions i
  heap : ∀ e, w.HasCode e → ¬e.Mentions a ∧ ¬e.Mentions i

/-- What the body may do: it binds names in frames of its own, and assigns to others. -/
def passScope (w : World) (f : FrameId) (a i : String) : Scope :=
  ⟨w.size, f, [], fun y => y ≠ a ∧ y ≠ i⟩

/-- What a loop may do that counts. -/
def loopScope (w : World) (f : FrameId) (a : String) : Scope := ⟨w.size, f, [], fun y => y ≠ a⟩

/-- The loop over `a` that began in the world `w` has made `k` passes and comes to its test. -/
structure Passed (w : World) (f : FrameId) (a i : String) (k : Nat) (u : World) : Prop where
  becomes : World.Becomes (loopScope w f a) w u
  counter : ∃ frame, u.store.frames[f]? = some frame ∧
    frame.slots.get? i = some (.integer (Int64.ofNat k))
  assigning : u.Obeys (.assigning (passScope w f a i))
  reading : u.Obeys (.without i)

section

variable {w u : World} {f : FrameId} {a i x : String} {xs : List Value} {body : Block} {k : Nat}
  {limit : Option Nat} {ps : List Pending} {v : Value}

theorem Passed.find?_array (hw : Counter w f a i x xs body) (h : Passed w f a i k u) :
    ∃ frame, u.store.frames[f]? = some frame ∧ frame.slots.get? a = some (.array xs) := by
  obtain ⟨old, hold, ha, -⟩ := hw.frame
  have hlt : f < w.size := (Array.getElem?_eq_some_iff.1 hold).1
  obtain ⟨new, hnew, hb⟩ := h.becomes f old hlt hold
  exact ⟨new, hnew, (hb.value (fun hne => hne rfl) fun hl => nomatch hl.2).trans ha⟩

theorem Passed.find?_len (hw : Counter w f a i x xs body) (h : Passed w f a i k u) :
    u.store.find? f "len" = none := by
  refine (hw.len.mono fun g old hold hx => ?_).findFrom _
  have hlt : g < w.size := (Array.getElem?_eq_some_iff.1 hold).1
  obtain ⟨new, hnew, hb⟩ := h.becomes g old hlt hold
  refine ⟨new, hnew, hb.parent, Option.not_isSome_iff_eq_none.1 fun hnew => ?_⟩
  rcases hb.gained hnew with hold | ⟨-, hl⟩
  · rw [Frame.Binds, hx] at hold
    cases hold
  · cases hl

/-- The test compares the counter with the length of the array. -/
theorem Passed.after_test (hw : Counter w f a i x xs body) (h : Passed w f a i k u)
    (hk : k ≤ xs.length) : Machine.after limit 10 ⟨.expr (counterTest a i) f, ps, u⟩ =
      ⟨.done (some (.boolean (k < xs.length))), ps, u⟩ := by
  obtain ⟨frame, hframe, ha⟩ := h.find?_array hw
  obtain ⟨frame', hframe', hi⟩ := h.counter
  have ha : u.store.get? f a = some (.array xs) := by
    rw [Store.get?, Store.find?_own hframe ha, Option.map_some]
  have hi : u.store.get? f i = some (.integer (Int64.ofNat k)) := by
    rw [Store.get?, Store.find?_own hframe' hi, Option.map_some]
  have hlen : u.store.get? f "len" = none := by
    rw [Store.get?, h.find?_len hw, Option.map_none]
  have hbuiltin : Builtin.ofName? "len" = some .len := by decide
  simp only [Machine.after, Machine.step, counterTest, Machine.evaluate, ha, hi, hlen, hbuiltin,
    Machine.settle, Machine.resume, Machine.arguments, Machine.call, Builtin.call,
    Machine.settleResult, BinaryOp.apply, BinaryOp.onIntegers, Option.getD_some,
    List.reverse_cons, List.reverse_nil, List.nil_append, counter_lt hk hw.short]

/-- In the new frame of a pass the variables of the frame below are seen. -/
theorem World.find?_pass {y : String} {t : Value} {frame : Frame}
    (hf : u.store.frames[f]? = some frame) (hy : frame.slots.get? y = some t) :
    (u.newFrame (some f) []).2.store.find? u.size y = some (f, t) := by
  have hlt : f < u.size := (Array.getElem?_eq_some_iff.1 hf).1
  have hnew : (u.newFrame (some f) []).2.store.frames[u.size]? = some ⟨some f, []⟩ :=
    Array.getElem?_push_size
  have hold : (u.newFrame (some f) []).2.store.frames[f]? = some frame :=
    (World.frames_newFrame hlt (some f) []).trans hf
  exact Store.find?_parent hnew rfl rfl (Nat.ne_of_lt hlt) hold hy

/-- The world in which the body is run for the item `v`. -/
def World.pass (u : World) (f : FrameId) (i x : String) (k : Nat) (v : Value) : World :=
  ((u.newFrame (some f) []).2.define u.size x v).define f i (.integer (Int64.ofNat (k + 1)))

/-- The item is read in the frame of the pass. -/
theorem Machine.after_item {g : FrameId} {b : Block} (ha : u.store.get? g a = some (.array xs))
    (hi : u.store.get? g i = some (.integer (Int64.ofNat k))) (hn : xs.length < 2 ^ 63)
    (hv : xs[k]? = some v) (hs : ¬v.IsSignal) :
    Machine.after limit 8
        ⟨.block (.define x (.index (.ident a) (.ident i)) :: b) g, ps, u⟩ =
      ⟨.done none, .more b g :: ps, u.define g x v⟩ := by
  have hk : k < 2 ^ 63 := Nat.lt_trans (List.getElem?_eq_some_iff.1 hv).1 hn
  simp only [after, step, statements, execute, evaluate, ha, hi,
    settle_of_not_isSignal (v := .array xs) id, settle_of_not_isSignal (v := .integer _) id,
    resume, Option.getD_some, counter_member hk hv, settleResult, settle_of_not_isSignal hs]

/-- The counter goes up. -/
theorem Machine.after_count {g : FrameId} {b : Block} {r : Option Value}
    (hi : u.store.get? g i = some (.integer (Int64.ofNat k)))
    (hf : u.store.resolve? g i = some f) :
    Machine.after limit 9
        ⟨.done r, .more (.expr (.assign i (.binary (.ident i) .add (.integer 1))) :: b) g :: ps,
          u⟩ =
      ⟨.done (some (.integer (Int64.ofNat (k + 1)))), .more b g :: ps,
        u.define f i (.integer (Int64.ofNat (k + 1)))⟩ := by
  simp only [after, step, execute, evaluate, hi, settle, resume, Option.getD_some, BinaryOp.apply,
    BinaryOp.onIntegers, settleResult, World.assign, Store.assign, hf, if_true, counter_succ]
  rfl

/-- A pass of the `while` comes to the body with the item bound and the counter gone up. -/
theorem Passed.after_prologue (hw : Counter w f a i x xs body) (h : Passed w f a i k u)
    (hv : xs[k]? = some v) :
    Machine.after limit 17
        ⟨.block (counterBody a i x body) u.size, ps, (u.newFrame (some f) []).2⟩ =
      ⟨.done (some (.integer (Int64.ofNat (k + 1)))), .more body u.size :: ps,
        u.pass f i x k v⟩ := by
  obtain ⟨frame, hframe, ha⟩ := h.find?_array hw
  obtain ⟨frame', hframe', hi⟩ := h.counter
  have ha := World.find?_pass hframe ha
  have hi := World.find?_pass hframe' hi
  have hget {y : String} {t : Value}
      (hy : (u.newFrame (some f) []).2.store.find? u.size y = some (f, t)) :
      (u.newFrame (some f) []).2.store.get? u.size y = some t := by
    rw [Store.get?, hy, Option.map_some]
  have hresolve : (u.newFrame (some f) []).2.store.resolve? u.size i = some f := by
    rw [Store.resolve?, hi, Option.map_some]
  have hsignal := hw.items v (List.mem_of_getElem? hv)
  rw [Machine.after_add 8 9, counterBody,
    Machine.after_item (hget ha) (hget hi) hw.short hv hsignal]
  exact Machine.after_count ((Store.get?_define hw.name u.size).trans (hget hi))
    ((Store.resolve?_define hw.name u.size).trans hresolve)

theorem Counter.ne (hw : Counter w f a i x xs body) : i ≠ a := by
  rintro rfl
  obtain ⟨frame, -, ha, hi⟩ := hw.frame
  rw [ha] at hi
  cases hi

theorem Passed.size_le (h : Passed w f a i k u) : w.size ≤ u.size := h.assigning.base

/-- What the item and the number do not break, the beginning of a pass does not. -/
theorem World.Obeys.pass {L : Law} (hu : u.Obeys L) (hf : L.frame u.size f)
    (hv : v.Obeys L u.size) : (u.pass f i x k v).Obeys L := by
  have hnew := hu.newFrame hf (List.forall_mem_nil _)
  have hv : v.Obeys L (u.newFrame (some f) []).2.size := by
    rw [World.size_newFrame]
    exact hv.succ
  exact (hnew.define hv).define (Value.obeys_integer _)

/-- A pass begins with a new frame and a higher counter. -/
theorem Passed.pass (hw : Counter w f a i x xs body) (h : Passed w f a i k u)
    (hv : xs[k]? = some v) : Passed w f a i (k + 1) (u.pass f i x k v) := by
  obtain ⟨frame, hframe, ha⟩ := h.find?_array hw
  obtain ⟨frame', hframe', hi⟩ := h.counter
  have hlt : f < u.size := (Array.getElem?_eq_some_iff.1 hframe).1
  have hobeys {L : Law} (hu : u.Obeys L) (hf : L.frame u.size f) : v.Obeys L u.size :=
    Value.obeys_array.1 (hu.slot hf hframe (Slots.mem_of_get? ha)) v (List.mem_of_getElem? hv)
  have hfits : ∀ e ∈ [.frame f [], .set u.size x v, .reset f i (.integer (Int64.ofNat (k + 1)))],
      Event.Fits (loopScope w f a) u e := by
    refine List.forall_mem_cons.2 ⟨trivial, List.forall_mem_cons.2 ⟨.inr h.size_le, ?_⟩⟩
    refine List.forall_mem_singleton.2 ⟨hw.ne, fun old _ hold => ?_⟩
    obtain rfl := Option.some.inj (hframe'.symm.trans hold)
    rw [Frame.Binds, hi]
    rfl
  constructor
  · exact h.becomes.trans (World.becomes_foldl hfits h.size_le)
  · have hold : ((u.newFrame (some f) []).2.define u.size x v).store.frames[f]? = some frame' :=
      (World.frames_define_other (Nat.ne_of_gt hlt) _ x v).trans
        ((World.frames_newFrame hlt (some f) []).trans hframe')
    exact ⟨_, World.frames_define_self hold i _, Slots.get?_insert_self _ _ _⟩
  · exact h.assigning.pass trivial (hobeys h.assigning trivial)
  · exact h.reading.pass trivial (hobeys h.reading trivial)

/-- The body has nothing to do with the counter. -/
theorem Passed.ignores (hw : Counter w f a i x xs body) (h : Passed w f a i k u)
    (hp : Passed w f a i (k + 1) (u.pass f i x k v)) :
    (Machine.load body u.size (u.pass f i x k v)).Ignores (passScope w f a i) f i := by
  obtain ⟨frame, hframe, -⟩ := hw.frame
  have hlt : f < w.size := (Array.getElem?_eq_some_iff.1 hframe).1
  have hassigns : ∀ e ∈ Stmt.withinList body, (Law.assigning (passScope w f a i)).code e := by
    rintro e he y d rfl
    obtain ⟨ha, hi⟩ := hw.code _ he
    exact ⟨fun hy => ha (hy ▸ .inr ⟨d, rfl⟩), fun hy => hi (hy ▸ .inr ⟨d, rfl⟩)⟩
  have hreads : ∀ e ∈ Stmt.withinList body, (Law.without i).code e :=
    fun e he hi => (hw.code e he).2 (.inl hi)
  refine ⟨?_, ⟨.inr h.size_le, List.forall_mem_nil _⟩, ?_, ?_, fun hi => hi.2 rfl, ?_⟩
  · obtain ⟨frame, hframe, hi⟩ := hp.counter
    exact ⟨frame, hframe, by rw [Frame.Binds, hi]; rfl⟩
  · exact ⟨hp.assigning, ⟨Block.obeys_iff.1 hassigns, trivial⟩, List.forall_mem_nil _⟩
  · exact ⟨hp.reading, ⟨Block.obeys_iff.1 hreads, trivial⟩, List.forall_mem_nil _⟩
  · rintro (⟨-, hl⟩ | hle)
    · exact List.not_mem_nil (hl i List.mem_cons_self)
    · exact Nat.not_le.2 hlt hle

theorem World.Becomes.of_pass {t t' : World} (h : World.Becomes (passScope w f a i) t t') :
    World.Becomes (loopScope w f a) t t' := by
  intro g old hlt hg
  obtain ⟨new, hnew, hb⟩ := h g old hlt hg
  exact ⟨new, hnew, { hb with value := fun ha hl => hb.value (fun hi => ha hi.1) hl }⟩

/-- When the body has ended, the number of passes has not changed. -/
theorem Passed.of_ends {m : Machine} {o : Machine.Outcome} {t : World}
    (h : Passed w f a i k m.world) (hm : m.Ignores (passScope w f a i) f i)
    (ht : Machine.Ends limit m o t) : Passed w f a i k t := by
  obtain ⟨n, hn⟩ := ht
  have hbecomes := hm.becomes limit n
  rw [Machine.run_eq_some.1 hn] at hbecomes
  refine ⟨h.becomes.trans hbecomes.of_pass, ?_, (hm.assigning.of_run hn).1,
    (hm.reading.of_run hn).1⟩
  obtain ⟨old, hold, hi⟩ := h.counter
  have hlt : f < w.size := Nat.not_le.1 fun hle => hm.not_allows (.inr hle)
  obtain ⟨new, hnew, hb⟩ := hbecomes f old hlt hold
  exact ⟨new, hnew, (hb.value hm.not_assigns fun hl => nomatch hl.2).trans hi⟩

end

/-! ## Loops -/

namespace Machine

section

variable {w u t : World} {f : FrameId} {a i x : String} {xs vs : List Value} {body : Block}
  {k : Nat} {limit : Option Nat} {v before : Value} {o : Outcome}

theorem ends_test_iff (hw : Counter w f a i x xs body) (h : Passed w f a i k u)
    (hk : k ≤ xs.length) : Ends limit ⟨.expr (counterTest a i) f,
        [.test (counterTest a i) (counterBody a i x body) f before], u⟩ o t ↔
      Ends limit (if k < xs.length then
        ⟨.block (counterBody a i x body) u.size,
          [.whilePass (counterTest a i) (counterBody a i x body) f before],
          (u.newFrame (some f) []).2⟩
      else ⟨.done (some before), [], u⟩) o t := by
  rw [← ends_after_iff 10, h.after_test hw hk, ← ends_step_iff]
  by_cases hlt : k < xs.length
  · rw [if_pos hlt, decide_eq_true hlt]
    exact Iff.rfl
  · rw [if_neg hlt, decide_eq_false hlt]
    exact Iff.rfl

/-- A pass of the `while` runs the body, and goes on from its outcome. -/
theorem ends_while_iff (hw : Counter w f a i x xs body) (h : Passed w f a i k u)
    (hv : xs[k]? = some v) : Ends limit ⟨.expr (counterTest a i) f,
        [.test (counterTest a i) (counterBody a i x body) f before], u⟩ o t ↔
      ∃ o' u', Ends limit (load body u.size (u.pass f i x k v)) o' u' ∧
        Ends limit ⟨o'.control, [.whilePass (counterTest a i) (counterBody a i x body) f before],
          u'⟩ o t := by
  have hlt : k < xs.length := (List.getElem?_eq_some_iff.1 hv).1
  rw [ends_test_iff hw h (Nat.le_of_lt hlt), if_pos hlt, ← ends_after_iff 17,
    h.after_prologue hw hv]
  refine (ends_onto_iff (m := rest body (.ok (some (.integer (Int64.ofNat (k + 1))))) u.size
    (u.pass f i x k v))).trans ?_
  refine exists₂_congr fun o' u' => and_congr_left fun _ => ?_
  rw [ends_rest_iff]
  constructor
  · rintro ⟨o₁, hb, rfl⟩
    rwa [if_neg hw.nonempty]
  · exact fun hb => ⟨o', hb, (if_neg hw.nonempty).symm⟩

/-- A pass of the `for` runs the body with the counter as it was at the beginning. -/
theorem ends_for_iff (hw : Counter w f a i x xs body) (h : Passed w f a i k u)
    (hv : xs[k]? = some v) :
    Ends limit (forPass x (v :: vs) body f before [] (u.define f i (.integer 0))) o t ↔
      ∃ o' u', Ends limit (load body u.size (u.pass f i x k v)) o' u' ∧
        Ends limit ⟨o'.control, [.forPass x vs body f before], u'.define f i (.integer 0)⟩ o t := by
  have hp := h.pass hw hv
  have hworld : ((u.define f i (.integer 0)).newFrame (some f) (.ofList [(x, v)])) =
      (u.size, (u.pass f i x k v).define f i (.integer 0)) := by
    obtain ⟨frame, hframe, -⟩ := h.counter
    have hlt : f < u.size := (Array.getElem?_eq_some_iff.1 hframe).1
    rw [World.newFrame_define hlt, World.pass, World.define_define, World.define_newFrame]
    rfl
  have hpass : forPass x (v :: vs) body f before [] (u.define f i (.integer 0)) =
      ((load body u.size (u.pass f i x k v)).define f i (.integer 0)).onto
        [.forPass x vs body f before] := by
    rw [forPass, hworld]
    rfl
  rw [hpass, ends_onto_iff]
  simp only [(h.ignores hw hp).ends_define_iff]
  constructor
  · rintro ⟨o', _, ⟨u', hb, rfl⟩, hrest⟩
    exact ⟨o', u', hb, hrest⟩
  · rintro ⟨o', u', hb, hrest⟩
    exact ⟨o', _, ⟨u', hb, rfl⟩, hrest⟩

theorem ends_define_iff_of_outcome (o' : Outcome) :
    Ends limit ⟨o'.control, [], u.define f i v⟩ o t ↔
      ∃ t', Ends limit ⟨o'.control, [], u⟩ o t' ∧ t = t'.define f i v := by
  simp only [ends_outcome_iff]
  constructor
  · rintro ⟨ho, rfl⟩
    exact ⟨u, ⟨ho, rfl⟩, rfl⟩
  · rintro ⟨t', ⟨ho, rfl⟩, rfl⟩
    exact ⟨ho, rfl⟩

/-- After the body both loops do the same, if they do so from the next item on. -/
theorem ends_next_iff {c : Expr} {b : Block} (o' : Outcome)
    (h : ∀ before, Ends limit (forPass x vs body f before [] (u.define f i v)) o t ↔
      ∃ t', Ends limit ⟨.expr c f, [.test c b f before], u⟩ o t' ∧ t = t'.define f i v) :
    Ends limit ⟨o'.control, [.forPass x vs body f before], u.define f i v⟩ o t ↔
      ∃ t', Ends limit ⟨o'.control, [.whilePass c b f before], u⟩ o t' ∧
        t = t'.define f i v := by
  rw [← ends_step_iff]
  simp only [← ends_step_iff (m := ⟨o'.control, [.whilePass c b f before], u⟩)]
  cases o' with
  | ok r => exact h (r.getD before)
  | error s =>
    cases s with
    | cont => exact h before
    | brk => exact ends_define_iff_of_outcome (.ok (some .null))
    | fault e => exact ends_define_iff_of_outcome (.error (.fault e))
    | returned r => exact ends_define_iff_of_outcome (.error (.returned r))

/-- After `k` passes, what is left of both loops does the same. The induction is on the items to
come; each pass keeps `Passed`. -/
theorem ends_loops_iff (hw : Counter w f a i x xs body) (h : Passed w f a i k u)
    (hvs : xs.drop k = vs) (hk : k ≤ xs.length) :
    Ends limit (forPass x vs body f before [] (u.define f i (.integer 0))) o t ↔
      ∃ t', Ends limit ⟨.expr (counterTest a i) f,
          [.test (counterTest a i) (counterBody a i x body) f before], u⟩ o t' ∧
        t = t'.define f i (.integer 0) := by
  induction vs generalizing k u before with
  | nil =>
    have hle : ¬k < xs.length := Nat.not_lt.2 (List.drop_eq_nil_iff.1 hvs)
    simp only [ends_test_iff hw h hk, if_neg hle]
    exact ends_define_iff_of_outcome (.ok (some before))
  | cons v vs ih =>
    have hlt : k < xs.length := Nat.not_le.1 fun hle => by
      rw [List.drop_eq_nil_of_le hle] at hvs
      cases hvs
    rw [List.drop_eq_getElem_cons hlt] at hvs
    obtain ⟨rfl, hrest⟩ := List.cons.inj hvs
    have hv : xs[k]? = some xs[k] := List.getElem?_eq_getElem hlt
    have hp := h.pass hw hv
    have hnext : ∀ o' u', Ends limit (load body u.size (u.pass f i x k xs[k])) o' u' →
        (Ends limit ⟨o'.control, [.forPass x vs body f before], u'.define f i (.integer 0)⟩ o t ↔
          ∃ t', Ends limit ⟨o'.control, [.whilePass (counterTest a i) (counterBody a i x body) f
            before], u'⟩ o t' ∧ t = t'.define f i (.integer 0)) := fun o' u' hb =>
      ends_next_iff o' fun before => ih (hp.of_ends (h.ignores hw hp) hb) hrest hlt
    rw [ends_for_iff hw h hv]
    simp only [ends_while_iff hw h hv]
    constructor
    · rintro ⟨o', u', hb, hrest⟩
      obtain ⟨t', ht', rfl⟩ := (hnext o' u' hb).1 hrest
      exact ⟨t', ⟨o', u', hb, ht'⟩, rfl⟩
    · rintro ⟨t', ⟨o', u', hb, ht'⟩, rfl⟩
      exact ⟨o', u', hb, (hnext o' u' hb).2 ⟨t', ht', rfl⟩⟩

/-- Before the first pass the counter is where it has to be. -/
theorem passed_zero (hw : Counter w f a i x xs body) : Passed w f a i 0 w := by
  obtain ⟨frame, hframe, -, hi⟩ := hw.frame
  refine ⟨World.Becomes.refl w, ⟨frame, hframe, hi⟩, ?_, ?_⟩
  · refine ⟨Nat.le_refl _, fun _ _ _ => trivial, fun {g frame s} _ hframe hs v hv => ?_⟩
    cases v with
    | function c =>
      refine ⟨List.forall_mem_cons.2 ⟨nofun, fun e he => ?_⟩, trivial⟩
      rintro y d rfl
      obtain ⟨ha, hi⟩ := hw.heap _ ⟨g, frame, s, c, hframe, hs, hv, he⟩
      exact ⟨fun hy => ha (hy ▸ .inr ⟨d, rfl⟩), fun hy => hi (hy ▸ .inr ⟨d, rfl⟩)⟩
    | _ => trivial
  · refine ⟨Nat.zero_le _, fun _ _ _ => trivial, fun {g frame s} _ hframe hs v hv => ?_⟩
    cases v with
    | function c =>
      refine ⟨List.forall_mem_cons.2 ⟨nofun, fun e he hread => ?_⟩, trivial⟩
      exact (hw.heap _ ⟨g, frame, s, c, hframe, hs, hv, he⟩).2 (.inl hread)
    | _ => trivial

/-- The loops come to the same outcome or do not come to an end, and what they leave is the same
but for the counter, which the `for` leaves alone. -/
theorem forIn_iff_counting (hw : Counter w f a i x xs body) (limit : Option Nat) (o : Outcome)
    (t : World) : Ends limit ⟨.expr (.forIn x (.ident a) body) f, [], w⟩ o t ↔
      ∃ t', Ends limit ⟨.expr (counting a i x body) f, [], w⟩ o t' ∧
        t = t'.define f i (.integer 0) := by
  obtain ⟨frame, hframe, ha, hi⟩ := hw.frame
  have hget : w.store.get? f a = some (.array xs) := by
    rw [Store.get?, Store.find?_own hframe ha, Option.map_some]
  have hfor : after limit 3 ⟨.expr (.forIn x (.ident a) body) f, [], w⟩ =
      forPass x xs body f .null [] (w.define f i (.integer 0)) := by
    rw [World.define_self hframe hi]
    simp only [after, step, evaluate, hget, settle, resume, Option.getD_some]
  rw [← ends_after_iff 3, hfor, ends_loops_iff hw (passed_zero hw) List.drop_zero
    (Nat.zero_le _)]
  simp only [← ends_step_iff (m := ⟨.expr (counting a i x body) f, [], w⟩)]
  exact Iff.rfl

end

/-- Variables for a loop that adds up. -/
def addends : Frame :=
  ⟨none, [("a", .array [.integer 4, .integer 5]), ("i", .integer 0), ("sum", .integer 0)]⟩

/-- `sum = sum + x` -/
def addUp : Block := [.expr (.assign "sum" (.binary (.ident "sum") .add (.ident "x")))]

theorem counting_addUp :
    let w := { World.fresh fun _ => 0 with store := ⟨#[addends]⟩ }
    ∃ o t, Ends none ⟨.expr (counting "a" "i" "x" addUp) 0, [], w⟩ o t ∧
      o.value.display = "9" := by
  intro w
  have hw : Counter w 0 "a" "i" "x" [.integer 4, .integer 5] addUp := by
    have hframe : w.store.frames[0]? = some addends := rfl
    refine ⟨⟨addends, hframe, rfl, rfl⟩, .root hframe rfl rfl, by decide, ?_, by decide, nofun, ?_,
      ?_⟩
    · simp [Value.IsSignal]
    · simp [addUp, Stmt.withinList, Stmt.within, Expr.within, Expr.Mentions]
    · rintro e ⟨g, frame, s, c, hframe, hs, hc, he⟩
      obtain rfl : addends = frame := by
        cases g with
        | zero => exact Option.some.inj hframe
        | succ g => cases hframe
      simp only [addends, List.mem_cons, List.not_mem_nil, or_false] at hs
      rcases hs with rfl | rfl | rfl <;> simp [Value.within, Value.withinList] at hc
  have hrun : (run none 30 ⟨.expr (.forIn "x" (.ident "a") addUp) 0, [], w⟩).map
      (·.1.value.display) = some "9" := by
    decide +kernel
  obtain ⟨⟨o, t⟩, hr, ho⟩ := Option.map_eq_some_iff.1 hrun
  obtain ⟨t', ht', -⟩ := (forIn_iff_counting hw none o t).1 ⟨30, hr⟩
  exact ⟨o, t', ht', ho⟩

end Machine

end MonkeyLang
