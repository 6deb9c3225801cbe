/-
What every step keeps. A `Law` says with which expressions, strings, hashes,
built-in functions and frames a machine may work. If the operations on strings
and hashes stay within the law, and the names of built-in functions and new
frames do, then a machine that obeys it obeys it for ever: each operation on
values, frames and the stack has a lemma, and `Machine.Obeys.step` puts them
together.
-/
import MonkeyLang.Machine.Step
import MonkeyLang.Proofs.Trace
import MonkeyLang.Proofs.Within

namespace MonkeyLang

structure Law where
  /-- What may stand in code. -/
  code : Expr → Prop
  text : String → Prop
  hash : Entries Value → Prop
  builtin : Builtin → Prop
  /-- The frames that may be used when there are so many. -/
  frame : Nat → FrameId → Prop
  /-- Signals may be kept as values. -/
  signals : Prop
  /-- From so many frames on, every new one may be used. -/
  base : Nat
  text_literal {s : String} : code (.string s) → text s
  text_append {s t : String} : text s → text t → text (s ++ t)
  text_integer (n : Int64) : text (Value.integer n).display
  text_boolean (b : Bool) : text (Value.boolean b).display
  hash_nil : hash []
  hash_insert {es : Entries Value} (k : Key) (v : Value) : hash es → hash (es.insert k v)
  builtin_named {x : String} {b : Builtin} : code (.ident x) → Builtin.ofName? x = some b →
    builtin b
  frame_succ {n : Nat} {f : FrameId} : frame (n + 1) f ↔ frame n f ∨ f = n ∧ base ≤ n

/-- The law that allows everything. -/
def Law.free : Law where
  code _ := True
  text _ := True
  hash _ := True
  builtin _ := True
  frame _ _ := True
  signals := True
  base := 0
  text_literal _ := trivial
  text_append _ _ := trivial
  text_integer _ := trivial
  text_boolean _ := trivial
  hash_nil := trivial
  hash_insert _ _ _ := trivial
  builtin_named _ _ := trivial
  frame_succ := by simp

theorem Law.frame_mono {L : Law} {m n : Nat} {f : FrameId} (h : L.frame m f) (hmn : m ≤ n) :
    L.frame n f := by
  induction hmn with
  | refl => exact h
  | step _ ih => exact L.frame_succ.2 (.inl ih)

/-! ## Code -/

def Expr.Obeys (L : Law) (e : Expr) : Prop := ∀ d ∈ e.within, L.code d

def Stmt.Obeys (L : Law) (s : Stmt) : Prop := ∀ d ∈ s.within, L.code d

def Block.Obeys (L : Law) (b : Block) : Prop := ∀ s ∈ b, s.Obeys L

section

variable {L : Law} {e c k l r f : Expr} {es : List Expr} {b : Block}

theorem Expr.obeys_list : (∀ d ∈ Expr.withinList es, L.code d) ↔ ∀ e ∈ es, e.Obeys L := by
  rw [Expr.withinList_eq, List.forall_mem_flatMap]
  rfl

theorem Expr.obeys_entries {es : List (Expr × Expr)} :
    (∀ d ∈ Expr.withinEntries es, L.code d) ↔ ∀ e ∈ es, e.1.Obeys L ∧ e.2.Obeys L := by
  simp only [Expr.withinEntries_eq, List.forall_mem_flatMap, List.forall_mem_append, Expr.Obeys]

theorem Block.obeys_iff : (∀ d ∈ Stmt.withinList b, L.code d) ↔ Block.Obeys L b := by
  rw [Stmt.withinList_eq, List.forall_mem_flatMap]
  rfl

theorem Expr.Obeys.array (h : (Expr.array es).Obeys L) : ∀ e ∈ es, e.Obeys L :=
  Expr.obeys_list.1 (List.forall_mem_cons.1 h).2

theorem Expr.Obeys.hash {es : List (Expr × Expr)} (h : (Expr.hash es).Obeys L) :
    ∀ e ∈ es, e.1.Obeys L ∧ e.2.Obeys L :=
  Expr.obeys_entries.1 (List.forall_mem_cons.1 h).2

theorem Expr.Obeys.unary {op : UnaryOp} (h : (Expr.unary op e).Obeys L) : e.Obeys L :=
  (List.forall_mem_cons.1 h).2

theorem Expr.Obeys.binary {op : BinaryOp} (h : (Expr.binary l op r).Obeys L) :
    l.Obeys L ∧ r.Obeys L :=
  List.forall_mem_append.1 (List.forall_mem_cons.1 h).2

theorem Expr.Obeys.assign {x : String} (h : (Expr.assign x e).Obeys L) : e.Obeys L :=
  (List.forall_mem_cons.1 h).2

theorem Expr.Obeys.ifElse {d : Option Block} (h : (Expr.ifElse c b d).Obeys L) :
    c.Obeys L ∧ Block.Obeys L b ∧ ∀ a ∈ d, Block.Obeys L a := by
  obtain ⟨h, hd⟩ := List.forall_mem_append.1 (List.forall_mem_cons.1 h).2
  obtain ⟨hc, hb⟩ := List.forall_mem_append.1 h
  refine ⟨hc, Block.obeys_iff.1 hb, ?_⟩
  rintro a rfl
  exact Block.obeys_iff.1 hd

theorem Expr.Obeys.forIn {x : String} (h : (Expr.forIn x e b).Obeys L) :
    e.Obeys L ∧ Block.Obeys L b := by
  obtain ⟨he, hb⟩ := List.forall_mem_append.1 (List.forall_mem_cons.1 h).2
  exact ⟨he, Block.obeys_iff.1 hb⟩

theorem Expr.Obeys.whileDo (h : (Expr.whileDo c b).Obeys L) : c.Obeys L ∧ Block.Obeys L b := by
  obtain ⟨hc, hb⟩ := List.forall_mem_append.1 (List.forall_mem_cons.1 h).2
  exact ⟨hc, Block.obeys_iff.1 hb⟩

theorem Expr.Obeys.function {xs : List String} (h : (Expr.function xs b).Obeys L) :
    Block.Obeys L b :=
  Block.obeys_iff.1 (List.forall_mem_cons.1 h).2

theorem Expr.Obeys.call (h : (Expr.call f es).Obeys L) : f.Obeys L ∧ ∀ e ∈ es, e.Obeys L := by
  obtain ⟨hf, hes⟩ := List.forall_mem_append.1 (List.forall_mem_cons.1 h).2
  exact ⟨hf, Expr.obeys_list.1 hes⟩

theorem Expr.Obeys.index (h : (Expr.index c k).Obeys L) : c.Obeys L ∧ k.Obeys L :=
  List.forall_mem_append.1 (List.forall_mem_cons.1 h).2

end

/-! ## Values -/

/-- The value itself is allowed, apart from what is within it. -/
def Law.Admits (L : Law) (n : Nat) : Value → Prop
  | .string s => L.text s
  | .hash es => L.hash es
  | .function c => (Expr.function c.parameters c.body).Obeys L ∧ L.frame n c.frame
  | .builtin b => L.builtin b
  | .signal _ => L.signals
  | _ => True

def Value.Obeys (L : Law) (n : Nat) (v : Value) : Prop := ∀ u ∈ v.within, L.Admits n u

def Signal.Obeys (L : Law) (n : Nat) (s : Signal) : Prop := ∀ u ∈ s.within, L.Admits n u

section

variable {L : Law} {n : Nat} {v w : Value} {vs : List Value} {es : Entries Value} {s : Signal}

theorem Law.Admits.succ (h : L.Admits n v) : L.Admits (n + 1) v := by
  cases v with
  | function c => exact ⟨h.1, L.frame_succ.2 (.inl h.2)⟩
  | _ => exact h

theorem Value.Obeys.succ (h : v.Obeys L n) : v.Obeys L (n + 1) := fun u hu => (h u hu).succ

theorem Signal.Obeys.succ (h : s.Obeys L n) : s.Obeys L (n + 1) := fun u hu => (h u hu).succ

theorem Value.Obeys.admits (h : v.Obeys L n) : L.Admits n v := h v v.mem_within_self

/-- A value with nothing within it. -/
theorem Value.obeys_of_admits (hv : v.within = [v]) (h : L.Admits n v) : v.Obeys L n := by
  intro u hu
  rw [hv, List.mem_singleton] at hu
  exact hu ▸ h

theorem Value.obeys_null : Value.null.Obeys L n := obeys_of_admits rfl trivial

theorem Value.obeys_integer (i : Int64) : (Value.integer i).Obeys L n := obeys_of_admits rfl trivial

theorem Value.obeys_boolean (b : Bool) : (Value.boolean b).Obeys L n := obeys_of_admits rfl trivial

theorem Value.obeys_string {t : String} (h : L.text t) : (Value.string t).Obeys L n :=
  obeys_of_admits rfl h

theorem Value.obeys_array : (Value.array vs).Obeys L n ↔ ∀ v ∈ vs, v.Obeys L n := by
  simp only [Value.Obeys, Value.forall_within_array, Law.Admits, true_and]

theorem Value.obeys_hash : (Value.hash es).Obeys L n ↔
    L.hash es ∧ ∀ e ∈ es, L.Admits n e.1.toValue ∧ e.2.Obeys L n := by
  simp only [Value.Obeys, Value.forall_within_hash, Law.Admits]

theorem Value.Obeys.signal (h : (Value.signal s).Obeys L n) : s.Obeys L n :=
  (List.forall_mem_cons.1 h).2

theorem Value.obeys_getD {r : Option Value} (h : ∀ v ∈ r, v.Obeys L n) (hw : w.Obeys L n) :
    (r.getD w).Obeys L n := by
  cases r with
  | none => exact hw
  | some v => exact h v rfl

/-- A hash that obeys the law goes on to do so when an entry is added. -/
theorem Value.Obeys.insert {k : Key} (h : (Value.hash es).Obeys L n)
    (hk : L.Admits n k.toValue) (hv : v.Obeys L n) : (Value.hash (es.insert k v)).Obeys L n := by
  obtain ⟨hes, hall⟩ := Value.obeys_hash.1 h
  refine Value.obeys_hash.2 ⟨L.hash_insert k v hes, fun e he => ?_⟩
  rcases Entries.mem_insert he with rfl | he
  · exact ⟨hk, hv⟩
  · exact hall e he

/-! ## Operators and built-in functions -/

theorem UnaryOp.apply_obeys {op : UnaryOp} (h : op.apply v = .ok w) : w.Obeys L n := by
  cases op with
  | not =>
    cases h
    exact Value.obeys_boolean _
  | negate =>
    cases v with
    | integer => cases h; exact Value.obeys_integer _
    | _ => cases h

theorem BinaryOp.onIntegers_obeys {op : BinaryOp} {i j : Int64} (h : op.onIntegers i j = .ok w) :
    w.Obeys L n := by
  cases op with
  | divide =>
    simp only [onIntegers] at h
    split at h
    · cases h
      exact Value.obeys_integer _
    · cases h
  | equal | notEqual | less | greater =>
    cases h
    exact Value.obeys_boolean _
  | _ =>
    cases h
    exact Value.obeys_integer _

theorem BinaryOp.apply_obeys {op : BinaryOp} {u : Value} (hv : v.Obeys L n) (hw : w.Obeys L n)
    (h : op.apply v w = .ok u) : u.Obeys L n := by
  unfold BinaryOp.apply at h
  split at h
  · exact BinaryOp.onIntegers_obeys h
  · split at h <;> cases h <;> exact Value.obeys_boolean _
  · split at h <;> cases h
    exact Value.obeys_string (L.text_append hv.admits hw.admits)
  · cases h

theorem Value.member_obeys {u : Value} (hv : v.Obeys L n) (h : v.member w = .ok u) :
    u.Obeys L n := by
  unfold Value.member at h
  split at h
  · rename_i items i
    split at h <;> cases h
    · exact Value.obeys_null
    · refine Value.obeys_getD (fun x hx => ?_) Value.obeys_null
      exact Value.obeys_array.1 hv x (List.mem_of_getElem? hx)
  · rename_i entries
    split at h <;> cases h
    refine Value.obeys_getD (fun x hx => ?_) Value.obeys_null
    exact ((Value.obeys_hash.1 hv).2 _ (Entries.mem_of_get? hx)).2
  · cases h

/-- Built-in functions leave the frames alone. -/
theorem Builtin.call_store (b : Builtin) (vs : List Value) (w : World) :
    (b.call vs w).2.store = w.store := by
  cases b <;> simp only [Builtin.call] <;> (repeat' split) <;> rfl

theorem Builtin.call_obeys {b : Builtin} {w : World} {u : Value} (hvs : ∀ v ∈ vs, v.Obeys L n)
    (h : (b.call vs w).1 = .ok u) : u.Obeys L n := by
  cases b <;> simp only [Builtin.call] at h
  case first =>
    split at h <;> cases h
    refine Value.obeys_getD (fun x hx => ?_) Value.obeys_null
    exact Value.obeys_array.1 (hvs _ List.mem_cons_self) x (List.mem_of_head? hx)
  case last =>
    split at h <;> cases h
    refine Value.obeys_getD (fun x hx => ?_) Value.obeys_null
    exact Value.obeys_array.1 (hvs _ List.mem_cons_self) x (List.mem_of_getLast? hx)
  case rest =>
    split at h <;> cases h
    · exact Value.obeys_null
    · have hall := Value.obeys_array.1 (hvs _ List.mem_cons_self)
      exact Value.obeys_array.2 (List.forall_mem_cons.1 hall).2
  case push =>
    split at h <;> cases h
    obtain ⟨hitems, hv⟩ := List.forall_mem_cons.1 hvs
    refine Value.obeys_array.2 (List.forall_mem_append.2 ⟨Value.obeys_array.1 hitems, ?_⟩)
    exact hv
  case len => split at h <;> cases h <;> exact Value.obeys_integer _
  case toStr =>
    split at h <;> cases h
    · exact Value.obeys_string (L.text_integer _)
    · exact Value.obeys_string (L.text_boolean _)
    · exact hvs _ List.mem_cons_self
  case range =>
    split at h <;> cases h
    refine Value.obeys_array.2 fun v hv => ?_
    obtain ⟨i, -, rfl⟩ := List.mem_map.1 hv
    exact Value.obeys_integer _
  case randint =>
    split at h
    · split at h <;> cases h
      exact Value.obeys_integer _
    all_goals cases h
  case puts =>
    cases h
    exact Value.obeys_null

end

/-! ## Frames -/

/-- The number of frames there are. -/
def World.size (w : World) : Nat := w.store.frames.size

/-- The frames that may be used hold what may be used, and their parents may be used too, already
when the frame was made. -/
structure World.Obeys (L : Law) (w : World) : Prop where
  base : L.base ≤ w.size
  parent {f : FrameId} {frame : Frame} {p : FrameId} : L.frame w.size f →
    w.store.frames[f]? = some frame → frame.parent = some p → L.frame f p
  slot {f : FrameId} {frame : Frame} {s : String × Value} : L.frame w.size f →
    w.store.frames[f]? = some frame → s ∈ frame.slots → s.2.Obeys L w.size

namespace World

variable {L : Law} {w : World} {f g : FrameId} {x : String} {v : Value} {ss : Slots}

@[simp] theorem size_define (w : World) (f : FrameId) (x : String) (v : Value) :
    (w.define f x v).size = w.size := Array.size_modify

@[simp] theorem size_newFrame (w : World) (p : Option FrameId) (ss : Slots) :
    (w.newFrame p ss).2.size = w.size + 1 := Array.size_push _

/-- Only the frames matter. -/
theorem Obeys.of_store {w' : World} (h : w.Obeys L) (hs : w'.store = w.store) : w'.Obeys L := by
  obtain ⟨hb, hp, hs'⟩ := h
  rw [World.size, ← hs] at hb hp hs'
  exact ⟨hb, hp, hs'⟩

/-- What is found from a frame that may be used is in a frame that may be used. -/
theorem Obeys.findFrom (h : w.Obeys L) {n : Nat} (hf : L.frame w.size f)
    (hg : w.store.findFrom x n f = some (g, v)) : L.frame w.size g ∧ v.Obeys L w.size := by
  induction n generalizing f with
  | zero => cases hg
  | succ n ih =>
    simp only [Store.findFrom, bind, Option.bind_eq_some_iff] at hg
    obtain ⟨frame, hframe, hg⟩ := hg
    split at hg
    · rename_i u hu
      obtain ⟨rfl, rfl⟩ := Prod.mk.inj (Option.some.inj hg)
      exact ⟨hf, h.slot hf hframe (Slots.mem_of_get? hu)⟩
    · obtain ⟨p, hp, hg⟩ := Option.bind_eq_some_iff.1 hg
      have hlt : f < w.size := (Array.getElem?_eq_some_iff.1 hframe).1
      exact ih (L.frame_mono (h.parent hf hframe hp) (Nat.le_of_lt hlt)) hg

theorem Obeys.get? (h : w.Obeys L) (hf : L.frame w.size f) (hv : w.store.get? f x = some v) :
    v.Obeys L w.size := by
  obtain ⟨⟨g, u⟩, hg, rfl⟩ := Option.map_eq_some_iff.1 hv
  exact (h.findFrom hf hg).2

theorem Obeys.resolve? (h : w.Obeys L) (hf : L.frame w.size f)
    (hg : w.store.resolve? f x = some g) : L.frame w.size g := by
  obtain ⟨⟨g', u⟩, hfind, rfl⟩ := Option.map_eq_some_iff.1 hg
  exact (h.findFrom hf hfind).1

/-- Each frame of the world is one that was there, with its parent, and what is in its slots was
there too or is the value that was bound. -/
theorem frame_define {frame : Frame} (hf : (w.define g x v).store.frames[f]? = some frame) :
    ∃ old, w.store.frames[f]? = some old ∧ frame.parent = old.parent ∧
      ∀ s ∈ frame.slots, s.2 = v ∨ s ∈ old.slots := by
  simp only [World.define, Store.define, Array.getElem?_modify] at hf
  split at hf
  · obtain ⟨old, hold, rfl⟩ := Option.map_eq_some_iff.1 hf
    refine ⟨old, hold, rfl, fun s hs => ?_⟩
    exact (Slots.mem_insert hs).imp (congrArg Prod.snd) id
  · exact ⟨frame, hf, rfl, fun s hs => .inr hs⟩

theorem Obeys.define (h : w.Obeys L) (hv : v.Obeys L w.size) : (w.define g x v).Obeys L := by
  constructor
  · rw [size_define]
    exact h.base
  · intro f frame p hf hframe hp
    obtain ⟨old, hold, hpar, -⟩ := frame_define hframe
    rw [size_define] at hf
    exact h.parent hf hold (hpar ▸ hp)
  · intro f frame s hf hframe hs
    obtain ⟨old, hold, -, hslots⟩ := frame_define hframe
    rw [size_define] at hf ⊢
    rcases hslots s hs with he | hs
    · exact he ▸ hv
    · exact h.slot hf hold hs

theorem frame_newFrame {p : Option FrameId} {frame : Frame}
    (hf : (w.newFrame p ss).2.store.frames[f]? = some frame) :
    (f = w.size ∧ frame = ⟨p, ss⟩) ∨ (f < w.size ∧ w.store.frames[f]? = some frame) := by
  simp only [World.newFrame, Store.newFrame, Array.getElem?_push] at hf
  split at hf
  · rename_i heq
    exact .inl ⟨heq, (Option.some.inj hf).symm⟩
  · exact .inr ⟨(Array.getElem?_eq_some_iff.1 hf).1, hf⟩

theorem Obeys.newFrame (h : w.Obeys L) (hg : L.frame w.size g)
    (hss : ∀ s ∈ ss, s.2.Obeys L w.size) : (w.newFrame (some g) ss).2.Obeys L := by
  have hold : ∀ {f}, L.frame (w.size + 1) f → f < w.size → L.frame w.size f := by
    intro f hf hlt
    rcases L.frame_succ.1 hf with hf | ⟨rfl, -⟩
    · exact hf
    · exact absurd hlt (Nat.lt_irrefl _)
  constructor
  · rw [size_newFrame]
    exact Nat.le_succ_of_le h.base
  · intro f frame p hf hframe hp
    rw [size_newFrame] at hf
    rcases frame_newFrame hframe with ⟨rfl, rfl⟩ | ⟨hlt, hframe⟩
    · cases hp
      exact hg
    · exact h.parent (hold hf hlt) hframe hp
  · intro f frame s hf hframe hs
    rw [size_newFrame] at hf ⊢
    rcases frame_newFrame hframe with ⟨rfl, rfl⟩ | ⟨hlt, hframe⟩
    · exact (hss s hs).succ
    · exact (h.slot (hold hf hlt) hframe hs).succ

theorem Obeys.frame_new (h : w.Obeys L) : L.frame (w.size + 1) w.size :=
  L.frame_succ.2 (.inr ⟨rfl, h.base⟩)

end World

/-! ## Machines -/

def Control.Obeys (L : Law) (n : Nat) : Control → Prop
  | .expr e f => e.Obeys L ∧ L.frame n f
  | .stmt s f => s.Obeys L ∧ L.frame n f
  | .block b f => Block.Obeys L b ∧ L.frame n f
  | .apply callee arguments => callee.Obeys L n ∧ ∀ v ∈ arguments, v.Obeys L n
  | .done result => ∀ v ∈ result, v.Obeys L n
  | .raised s => s.Obeys L n

def Pending.Obeys (L : Law) (n : Nat) : Pending → Prop
  | .more b f => Block.Obeys L b ∧ L.frame n f
  | .define _ f | .assign _ f => L.frame n f
  | .item before after f =>
    (∀ v ∈ before, v.Obeys L n) ∧ (∀ e ∈ after, e.Obeys L) ∧ L.frame n f
  | .entryKey before value after f =>
    (Value.hash before).Obeys L n ∧ value.Obeys L ∧ (∀ e ∈ after, e.1.Obeys L ∧ e.2.Obeys L) ∧
      L.frame n f
  | .entryValue before k after f =>
    (Value.hash before).Obeys L n ∧ L.Admits n k.toValue ∧
      (∀ e ∈ after, e.1.Obeys L ∧ e.2.Obeys L) ∧ L.frame n f
  | .binaryLeft _ e f | .collection e f => e.Obeys L ∧ L.frame n f
  | .binaryRight v _ | .key v => v.Obeys L n
  | .choose b d f => Block.Obeys L b ∧ (∀ a ∈ d, Block.Obeys L a) ∧ L.frame n f
  | .iterate _ body f => Block.Obeys L body ∧ L.frame n f
  | .forPass _ after body f result =>
    (∀ v ∈ after, v.Obeys L n) ∧ Block.Obeys L body ∧ L.frame n f ∧ result.Obeys L n
  | .test condition body f result | .whilePass condition body f result =>
    condition.Obeys L ∧ Block.Obeys L body ∧ L.frame n f ∧ result.Obeys L n
  | .callee after f => (∀ e ∈ after, e.Obeys L) ∧ L.frame n f
  | .argument v before after f =>
    v.Obeys L n ∧ (∀ u ∈ before, u.Obeys L n) ∧ (∀ e ∈ after, e.Obeys L) ∧ L.frame n f
  | .ret | .unary _ | .chosen | .call => True

theorem Pending.Obeys.succ {L : Law} {n : Nat} {p : Pending} (h : p.Obeys L n) :
    p.Obeys L (n + 1) := by
  have hf : ∀ {f}, L.frame n f → L.frame (n + 1) f := fun hf => L.frame_succ.2 (.inl hf)
  have hvs : ∀ {vs : List Value}, (∀ v ∈ vs, v.Obeys L n) → ∀ v ∈ vs, v.Obeys L (n + 1) :=
    fun hvs v hv => (hvs v hv).succ
  cases p with
  | more | binaryLeft | iterate | callee | collection => exact ⟨h.1, hf h.2⟩
  | define | assign => exact hf h
  | item => exact ⟨hvs h.1, h.2.1, hf h.2.2⟩
  | entryKey => exact ⟨h.1.succ, h.2.1, h.2.2.1, hf h.2.2.2⟩
  | entryValue => exact ⟨h.1.succ, h.2.1.succ, h.2.2.1, hf h.2.2.2⟩
  | binaryRight | key => exact Value.Obeys.succ h
  | choose => exact ⟨h.1, h.2.1, hf h.2.2⟩
  | forPass => exact ⟨hvs h.1, h.2.1, hf h.2.2.1, h.2.2.2.succ⟩
  | test | whilePass => exact ⟨h.1, h.2.1, hf h.2.2.1, h.2.2.2.succ⟩
  | argument => exact ⟨h.1.succ, hvs h.2.1, h.2.2.1, hf h.2.2.2⟩
  | ret | unary | chosen | call => trivial

namespace Machine

structure Obeys (L : Law) (m : Machine) : Prop where
  world : m.world.Obeys L
  control : m.control.Obeys L m.world.size
  stack : ∀ p ∈ m.stack, p.Obeys L m.world.size

section

variable {L : Law} {limit : Option Nat} {c : Control} {f : FrameId} {p : Pending}
  {k : List Pending} {w : World} {v : Value}

theorem obeys_push (hw : w.Obeys L) (hc : c.Obeys L w.size) (hp : p.Obeys L w.size)
    (hk : ∀ p ∈ k, p.Obeys L w.size) : Obeys L ⟨c, p :: k, w⟩ :=
  ⟨hw, hc, List.forall_mem_cons.2 ⟨hp, hk⟩⟩

theorem obeys_some {n : Nat} (h : v.Obeys L n) : (Control.done (some v)).Obeys L n :=
  fun _ hv => Option.mem_some.1 hv ▸ h

theorem obeys_none (n : Nat) : (Control.done none).Obeys L n := fun _ h => nomatch h

theorem obeys_settle {n : Nat} (h : v.Obeys L n) : (settle v).Obeys L n := by
  cases v with
  | signal s => exact h.signal
  | _ => exact obeys_some h

theorem obeys_settleResult {n : Nat} {r : Except Fault Value}
    (h : ∀ v, r = .ok v → v.Obeys L n) : (settleResult r).Obeys L n := by
  cases r with
  | ok v => exact obeys_settle (h v rfl)
  | error e => exact List.forall_mem_nil _

theorem obeys_raise (e : Fault) (n : Nat) : (raise e).Obeys L n := List.forall_mem_nil _

theorem obeys_items (hw : w.Obeys L) {before : List Value} {after : List Expr}
    (hb : ∀ v ∈ before, v.Obeys L w.size) (ha : ∀ e ∈ after, e.Obeys L) (hf : L.frame w.size f)
    (hk : ∀ p ∈ k, p.Obeys L w.size) : (items before after f k w).Obeys L := by
  cases after with
  | nil =>
    have hvs : ∀ v ∈ before.reverse, v.Obeys L w.size := fun v hv => hb v (List.mem_reverse.1 hv)
    exact ⟨hw, obeys_some (Value.obeys_array.2 hvs), hk⟩
  | cons e es =>
    obtain ⟨he, hes⟩ := List.forall_mem_cons.1 ha
    exact obeys_push hw ⟨he, hf⟩ ⟨hb, hes, hf⟩ hk

theorem obeys_entries (hw : w.Obeys L) {before : Entries Value} {after : List (Expr × Expr)}
    (hb : (Value.hash before).Obeys L w.size) (ha : ∀ e ∈ after, e.1.Obeys L ∧ e.2.Obeys L)
    (hf : L.frame w.size f) (hk : ∀ p ∈ k, p.Obeys L w.size) :
    (entries before after f k w).Obeys L := by
  cases after with
  | nil => exact ⟨hw, obeys_some hb, hk⟩
  | cons e es =>
    obtain ⟨he, hes⟩ := List.forall_mem_cons.1 ha
    exact obeys_push hw ⟨he.1, hf⟩ ⟨hb, he.2, hes, hf⟩ hk

theorem obeys_arguments (hw : w.Obeys L) {callee : Value} {before : List Value}
    {after : List Expr} (hc : callee.Obeys L w.size) (hb : ∀ v ∈ before, v.Obeys L w.size)
    (ha : ∀ e ∈ after, e.Obeys L) (hf : L.frame w.size f) (hk : ∀ p ∈ k, p.Obeys L w.size) :
    (arguments callee before after f k w).Obeys L := by
  cases after with
  | nil => exact ⟨hw, ⟨hc, fun v hv => hb v (List.mem_reverse.1 hv)⟩, hk⟩
  | cons e es =>
    obtain ⟨he, hes⟩ := List.forall_mem_cons.1 ha
    exact obeys_push hw ⟨he, hf⟩ ⟨hc, hb, hes, hf⟩ hk

theorem obeys_pass (hw : w.Obeys L) {x : String} {after : List Value} {body : Block}
    {result : Value} (hp : (Pending.forPass x after body f result).Obeys L w.size)
    (hk : ∀ p ∈ k, p.Obeys L w.size) : (forPass x after body f result k w).Obeys L := by
  obtain ⟨ha, hb, hf, hr⟩ := hp
  cases after with
  | nil => exact ⟨hw, obeys_some hr, hk⟩
  | cons u us =>
    obtain ⟨hu, hus⟩ := List.forall_mem_cons.1 ha
    have hss : ∀ s ∈ Slots.ofList [(x, u)], s.2.Obeys L w.size := by
      intro s hs
      obtain rfl := List.mem_singleton.1 (Slots.mem_ofList hs)
      exact hu
    have hp : (Pending.forPass x us body f result).Obeys L w.size := ⟨hus, hb, hf, hr⟩
    exact obeys_push (hw.newFrame hf hss) ⟨hb, World.size_newFrame .. ▸ hw.frame_new⟩
      (World.size_newFrame .. ▸ hp.succ) fun p hp => World.size_newFrame .. ▸ (hk p hp).succ

theorem obeys_evaluate (hw : w.Obeys L) {e : Expr} (he : e.Obeys L) (hf : L.frame w.size f)
    (hk : ∀ p ∈ k, p.Obeys L w.size) : (evaluate e f k w).Obeys L := by
  cases e with
  | ident x =>
    simp only [evaluate]
    split
    · rename_i v hv
      exact ⟨hw, obeys_settle (hw.get? hf hv), hk⟩
    · split
      · rename_i b hb
        have hx : L.code (.ident x) := he _ (Expr.mem_within_self _)
        exact ⟨hw, obeys_some (Value.obeys_of_admits rfl (L.builtin_named hx hb)), hk⟩
      · exact ⟨hw, obeys_raise _ _, hk⟩
  | integer i => exact ⟨hw, obeys_some (Value.obeys_integer i), hk⟩
  | boolean b => exact ⟨hw, obeys_some (Value.obeys_boolean b), hk⟩
  | string s =>
    have hs : L.text s := L.text_literal (he _ (Expr.mem_within_self _))
    exact ⟨hw, obeys_some (Value.obeys_string hs), hk⟩
  | array es => exact obeys_items hw (List.forall_mem_nil _) he.array hf hk
  | hash es =>
    have hempty : (Value.hash []).Obeys L w.size :=
      Value.obeys_hash.2 ⟨L.hash_nil, List.forall_mem_nil _⟩
    exact obeys_entries hw hempty he.hash hf hk
  | unary op e => exact obeys_push hw ⟨he.unary, hf⟩ trivial hk
  | binary l op r => exact obeys_push hw ⟨he.binary.1, hf⟩ ⟨he.binary.2, hf⟩ hk
  | assign x e => exact obeys_push hw ⟨he.assign, hf⟩ hf hk
  | ifElse c b d =>
    obtain ⟨hc, hb, hd⟩ := he.ifElse
    exact obeys_push hw ⟨hc, hf⟩ ⟨hb, hd, hf⟩ hk
  | forIn x e b => exact obeys_push hw ⟨he.forIn.1, hf⟩ ⟨he.forIn.2, hf⟩ hk
  | whileDo c b =>
    obtain ⟨hc, hb⟩ := he.whileDo
    exact obeys_push hw ⟨hc, hf⟩ ⟨hc, hb, hf, Value.obeys_null⟩ hk
  | function xs b =>
    exact ⟨hw.of_store rfl, obeys_some (Value.obeys_of_admits rfl ⟨he, hf⟩), hk⟩
  | call g es => exact obeys_push hw ⟨he.call.1, hf⟩ ⟨he.call.2, hf⟩ hk
  | index c e => exact obeys_push hw ⟨he.index.1, hf⟩ ⟨he.index.2, hf⟩ hk

theorem obeys_execute (hw : w.Obeys L) {s : Stmt} (hs : s.Obeys L) (hf : L.frame w.size f)
    (hk : ∀ p ∈ k, p.Obeys L w.size) : (execute s f k w).Obeys L := by
  cases s with
  | define x e => exact obeys_push hw ⟨hs, hf⟩ hf hk
  | ret e => exact obeys_push hw ⟨hs, hf⟩ trivial hk
  | expr e => exact ⟨hw, ⟨hs, hf⟩, hk⟩
  | brk | cont => exact ⟨hw, List.forall_mem_nil _, hk⟩

theorem obeys_statements (hw : w.Obeys L) {b : Block} (hb : Block.Obeys L b)
    (hf : L.frame w.size f) (hk : ∀ p ∈ k, p.Obeys L w.size) :
    (statements b f k w).Obeys L := by
  cases b with
  | nil => exact ⟨hw, obeys_none _, hk⟩
  | cons s b =>
    obtain ⟨hs, hb⟩ := List.forall_mem_cons.1 hb
    exact obeys_push hw ⟨hs, hf⟩ ⟨hb, hf⟩ hk

theorem obeys_call (hw : w.Obeys L) {callee : Value} {arguments : List Value}
    (hc : callee.Obeys L w.size) (ha : ∀ v ∈ arguments, v.Obeys L w.size)
    (hk : ∀ p ∈ k, p.Obeys L w.size) : (call limit callee arguments k w).Obeys L := by
  cases callee with
  | function c =>
    obtain ⟨hbody, hf⟩ := hc.admits
    simp only [call]
    split
    · exact ⟨hw, obeys_raise _ _, hk⟩
    · split
      · exact ⟨hw, obeys_raise _ _, hk⟩
      · have hss : ∀ s ∈ Slots.ofList (c.parameters.zip arguments), s.2.Obeys L w.size :=
          fun s hs => ha _ (List.of_mem_zip (Slots.mem_ofList hs)).2
        have hw' := hw.newFrame hf hss
        have hsize := w.size_newFrame (some c.frame) (.ofList (c.parameters.zip arguments))
        refine obeys_push (hw'.of_store rfl) ⟨hbody.function, ?_⟩ trivial fun p hp => ?_
        · exact hsize ▸ hw.frame_new
        · exact hsize ▸ (hk p hp).succ
  | builtin b =>
    have hstore : (b.call arguments w).2.store = w.store := b.call_store arguments w
    have hsize : (b.call arguments w).2.size = w.size := congrArg (·.frames.size) hstore
    have hr : (settleResult (b.call arguments w).1).Obeys L w.size :=
      obeys_settleResult fun v hv => Builtin.call_obeys ha hv
    exact ⟨hw.of_store hstore, hsize ▸ hr, fun p hp => hsize ▸ hk p hp⟩
  | _ => exact ⟨hw, obeys_raise _ _, hk⟩

theorem obeys_resume (hw : w.Obeys L) {result : Option Value}
    (hr : ∀ v ∈ result, v.Obeys L w.size) (hp : p.Obeys L w.size)
    (hk : ∀ p ∈ k, p.Obeys L w.size) : (resume result p k w).Obeys L := by
  have hv : (result.getD .null).Obeys L w.size := Value.obeys_getD hr Value.obeys_null
  cases p with
  | more b f =>
    cases b with
    | nil => exact ⟨hw, hr, hk⟩
    | cons s b =>
      obtain ⟨hs, hb⟩ := List.forall_mem_cons.1 hp.1
      exact obeys_push hw ⟨hs, hp.2⟩ ⟨hb, hp.2⟩ hk
  | define x f =>
    have hsize := w.size_define f x (result.getD .null)
    exact ⟨hw.define hv, obeys_none _, fun p hp => hsize ▸ hk p hp⟩
  | ret => exact ⟨hw, hv, hk⟩
  | item before after f =>
    exact obeys_items hw (List.forall_mem_cons.2 ⟨hv, hp.1⟩) hp.2.1 hp.2.2 hk
  | entryKey before value after f =>
    obtain ⟨hb, he, ha, hf⟩ := hp
    simp only [resume]
    split
    · rename_i key hkey
      rw [Value.key?_eq_some_iff] at hkey
      exact obeys_push hw ⟨he, hf⟩ ⟨hb, hkey ▸ hv.admits, ha, hf⟩ hk
    · exact ⟨hw, obeys_raise _ _, hk⟩
  | entryValue before key after f =>
    obtain ⟨hb, hkey, ha, hf⟩ := hp
    exact obeys_entries hw (hb.insert hkey hv) ha hf hk
  | unary op => exact ⟨hw, obeys_settleResult fun v h => UnaryOp.apply_obeys h, hk⟩
  | binaryLeft op right f => exact obeys_push hw hp hv hk
  | binaryRight left op =>
    exact ⟨hw, obeys_settleResult fun v h => BinaryOp.apply_obeys hp hv h, hk⟩
  | assign x f =>
    cases hg : w.store.resolve? f x with
    | some g =>
      have hsize := w.size_define g x (result.getD .null)
      simp only [resume, World.assign, Store.assign, hg]
      exact ⟨hw.define hv, hsize ▸ obeys_some hv, fun p hp => hsize ▸ hk p hp⟩
    | none =>
      simp only [resume, World.assign, Store.assign, hg]
      exact ⟨hw, obeys_raise _ _, hk⟩
  | choose b d f =>
    obtain ⟨hb, hd, hf⟩ := hp
    simp only [resume]
    split
    · exact obeys_push hw ⟨hb, hf⟩ trivial hk
    · split
      · exact obeys_push hw ⟨hd _ rfl, hf⟩ trivial hk
      · exact ⟨hw, obeys_some Value.obeys_null, hk⟩
  | chosen => exact ⟨hw, obeys_some hv, hk⟩
  | iterate x body f =>
    simp only [resume]
    split
    · rename_i vs hvs
      have hall : ∀ v ∈ vs, v.Obeys L w.size := Value.obeys_array.1 (hvs ▸ hv)
      exact obeys_pass hw ⟨hall, hp.1, hp.2, Value.obeys_null⟩ hk
    · exact ⟨hw, obeys_raise _ _, hk⟩
  | forPass x after body f before =>
    obtain ⟨ha, hb, hf, hbefore⟩ := hp
    exact obeys_pass hw ⟨ha, hb, hf, Value.obeys_getD hr hbefore⟩ hk
  | test c body f before =>
    obtain ⟨hc, hb, hf, hbefore⟩ := id hp
    simp only [resume]
    split
    · have hsize := w.size_newFrame (some f) []
      refine obeys_push (hw.newFrame hf (List.forall_mem_nil _)) ⟨hb, ?_⟩ ?_ fun p hp => ?_
      · exact hsize ▸ hw.frame_new
      · exact hsize ▸ (Pending.Obeys.succ (p := .whilePass c body f before) hp)
      · exact hsize ▸ (hk p hp).succ
    · exact ⟨hw, obeys_some hbefore, hk⟩
  | whilePass c body f before =>
    obtain ⟨hc, hb, hf, hbefore⟩ := hp
    exact obeys_push hw ⟨hc, hf⟩ ⟨hc, hb, hf, Value.obeys_getD hr hbefore⟩ hk
  | callee args f => exact obeys_arguments hw hv (List.forall_mem_nil _) hp.1 hp.2 hk
  | argument callee before after f =>
    obtain ⟨hc, hb, ha, hf⟩ := hp
    exact obeys_arguments hw hc (List.forall_mem_cons.2 ⟨hv, hb⟩) ha hf hk
  | call => exact ⟨hw.of_store rfl, obeys_some hv, hk⟩
  | collection key f => exact obeys_push hw hp hv hk
  | key collection => exact ⟨hw, obeys_settleResult fun v h => Value.member_obeys hp h, hk⟩

theorem obeys_unwind (hw : w.Obeys L) {s : Signal} (hs : s.Obeys L w.size)
    (hp : p.Obeys L w.size) (hk : ∀ p ∈ k, p.Obeys L w.size) : (unwind s p k w).Obeys L := by
  cases p with
  | forPass x after body f before =>
    cases s with
    | brk => exact ⟨hw, obeys_some Value.obeys_null, hk⟩
    | cont => exact obeys_pass hw hp hk
    | _ => exact ⟨hw, hs, hk⟩
  | whilePass c body f before =>
    cases s with
    | brk => exact ⟨hw, obeys_some Value.obeys_null, hk⟩
    | cont => exact obeys_push hw ⟨hp.1, hp.2.2.1⟩ hp hk
    | _ => exact ⟨hw, hs, hk⟩
  | call =>
    cases s with
    | returned v => exact ⟨hw.of_store rfl, obeys_settle hs, hk⟩
    | fault e => exact ⟨hw.of_store rfl, hs, hk⟩
    | _ => exact ⟨hw.of_store rfl, obeys_raise _ _, hk⟩
  | _ => exact ⟨hw, hs, hk⟩

end

/-- A step stays within the law. -/
theorem Obeys.step {L : Law} {m : Machine} (limit : Option Nat) (h : m.Obeys L) :
    (m.step limit).Obeys L := by
  obtain ⟨c, k, w⟩ := m
  obtain ⟨hw, hc, hk⟩ := h
  cases c with
  | expr e f => exact obeys_evaluate hw hc.1 hc.2 hk
  | stmt s f => exact obeys_execute hw hc.1 hc.2 hk
  | block b f => exact obeys_statements hw hc.1 hc.2 hk
  | apply callee arguments => exact obeys_call hw hc.1 hc.2 hk
  | done result =>
    cases k with
    | nil => exact ⟨hw, hc, hk⟩
    | cons p k =>
      obtain ⟨hp, hk⟩ := List.forall_mem_cons.1 hk
      exact obeys_resume hw hc hp hk
  | raised s =>
    cases k with
    | nil => exact ⟨hw, hc, hk⟩
    | cons p k =>
      obtain ⟨hp, hk⟩ := List.forall_mem_cons.1 hk
      exact obeys_unwind hw hc hp hk

theorem Obeys.after {L : Law} {m : Machine} (limit : Option Nat) (h : m.Obeys L) (n : Nat) :
    (m.after limit n).Obeys L := by
  induction n generalizing m with
  | zero => exact h
  | succ n ih => exact ih (h.step limit)

/-- What comes out of a part stays within the law, and so does the world that it leaves. -/
theorem Obeys.of_run {L : Law} {limit : Option Nat} {n : Nat} {m : Machine} {o : Outcome}
    {w : World} (h : m.Obeys L) (hr : m.run limit n = some (o, w)) :
    w.Obeys L ∧ o.control.Obeys L w.size := by
  have ha := h.after limit n
  rw [run_eq_some.1 hr] at ha
  exact ⟨ha.world, ha.control⟩

/-- What is waiting for a part may still be waiting when it is over. -/
theorem Obeys.waiting {L : Law} {limit : Option Nat} {n : Nat} {c : Control} {w u : World}
    {o : Outcome} {p : Pending} (h : Obeys L ⟨c, [], w⟩) (hp : p.Obeys L w.size)
    (hr : run limit n ⟨c, [], w⟩ = some (o, u)) : p.Obeys L u.size := by
  have hm : Obeys L ⟨c, [p], w⟩ := obeys_push h.world h.control hp (List.forall_mem_nil _)
  obtain ⟨i, -, ha⟩ := after_onto [p] hr
  have hi := hm.after limit i
  rw [show Machine.after limit i ⟨c, [p], w⟩ = ⟨o.control, [p], u⟩ from ha] at hi
  exact hi.stack p List.mem_cons_self

/-- The value of a program obeys the law, unless it is an error. -/
theorem Outcome.obeys_value {L : Law} {n : Nat} {o : Outcome} (h : o.control.Obeys L n) :
    o.value.Obeys L n ∨ ∃ e, o.value = .signal (.fault e) := by
  cases o with
  | ok result => exact .inl (Value.obeys_getD h Value.obeys_null)
  | error s =>
    cases s with
    | returned v => exact .inl h
    | fault e => exact .inr ⟨e, rfl⟩
    | brk | cont => exact .inr ⟨_, rfl⟩

end Machine

theorem Program.obeys_of_run {L : Law} {limit : Option Nat} {p : Program} {n : Nat} {f : FrameId}
    {w u : World} {v : Value} (hw : w.Obeys L) (hp : Block.Obeys L p) (hf : L.frame w.size f)
    (h : p.run limit n f w = some (v, u)) :
    u.Obeys L ∧ L.frame u.size f ∧ (v.Obeys L u.size ∨ ∃ e, v = .signal (.fault e)) := by
  obtain ⟨⟨o, u'⟩, hr, he⟩ := Option.map_eq_some_iff.1 h
  cases he
  have hm : Machine.Obeys L (Machine.load p f w) := ⟨hw, ⟨hp, hf⟩, List.forall_mem_nil _⟩
  obtain ⟨hu, ho⟩ := hm.of_run hr
  have hwait : Pending.Obeys L u.size (.more [] f) := hm.waiting ⟨List.forall_mem_nil _, hf⟩ hr
  exact ⟨hu, hwait.2, Machine.Outcome.obeys_value ho⟩

end MonkeyLang
