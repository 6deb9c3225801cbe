/-
Functions that go through an array by calling themselves. `map` and `reduce` are
both a helper that is bound to a name in the frame of the call and takes an
array and what it has so far. They compute what they should for every array, and
the calls within each other are as many as the items and two more, however many
calls of built-in functions there are.
-/
import Mathlib.Data.Int.ModEq
import MonkeyLang.Proofs.Lexing
import MonkeyLang.Proofs.Nesting
import MonkeyLang.Proofs.Unseen

namespace MonkeyLang

open Machine

/-! ## The program -/

/-- Doubles the integers of an array and adds them up. -/
def doubleAndAddSource : String := "
        let map = fn(arr, f) {
            let iter = fn(arr, acc) {
                if (len(arr) == 0) {
                    acc
                } else {
                    iter(rest(arr), push(acc, f(first(arr))));
                }
            };
            iter(arr, []);
        };

        let reduce = fn(arr, initial, f) {
            let iter = fn(arr, result) {
                if (len(arr) == 0) {
                    result
                } else {
                    iter(rest(arr), f(result, first(arr)));
                }
            };
            iter(arr, initial);
        };

        let doubled = map(xs, fn(x) { x * 2 });
        reduce(doubled, 0, fn(acc, x) { acc + x });
    "

/-- `if (len(arr) == 0) { acc } else { iter(rest(arr), step); }`, with any name for `acc` -/
def iterBody (acc : String) (step : Expr) : Block :=
  [.expr (.ifElse (.binary (.call (.ident "len") [.ident "arr"]) .equal (.integer 0))
    [.expr (.ident acc)]
    (some [.expr (.call (.ident "iter") [.call (.ident "rest") [.ident "arr"], step])]))]

/-- The function `iter` that is made in frame `h`. -/
def helper (num : Nat) (acc : String) (step : Expr) (h : FrameId) : Closure :=
  ⟨num, ["arr", acc], iterBody acc step, h⟩

/-- `let iter = fn(arr, acc) { .. }; iter(arr, initial);` -/
def iteration (acc : String) (step initial : Expr) : Block :=
  [.define "iter" (.function ["arr", acc] (iterBody acc step)),
    .expr (.call (.ident "iter") [.ident "arr", initial])]

/-- `push(acc, f(first(arr)))` -/
def mapStep : Expr :=
  .call (.ident "push") [.ident "acc", .call (.ident "f") [.call (.ident "first") [.ident "arr"]]]

/-- `f(result, first(arr))` -/
def reduceStep : Expr :=
  .call (.ident "f") [.ident "result", .call (.ident "first") [.ident "arr"]]

def mapBody : Block := iteration "acc" mapStep (.array [])

def reduceBody : Block := iteration "result" reduceStep (.ident "initial")

/-- `x * 2` -/
def doubleBody : Block := [.expr (.binary (.ident "x") .multiply (.integer 2))]

/-- `acc + x` -/
def addBody : Block := [.expr (.binary (.ident "acc") .add (.ident "x"))]

/-- `map(xs, fn(x) { x * 2 })` -/
def doubling : Expr := .call (.ident "map") [.ident "xs", .function ["x"] doubleBody]

/-- `reduce(doubled, 0, fn(acc, x) { acc + x })` -/
def adding : Expr :=
  .call (.ident "reduce") [.ident "doubled", .integer 0, .function ["acc", "x"] addBody]

def doubleAndAdd : Program :=
  [.define "map" (.function ["arr", "f"] mapBody),
    .define "reduce" (.function ["arr", "initial", "f"] reduceBody),
    .define "doubled" doubling, .expr adding]

set_option maxRecDepth 4000 in
theorem parse_doubleAndAddSource :
    (parse doubleAndAddSource).program = doubleAndAdd ∧
      (parse doubleAndAddSource).errors = [] := by
  have htokens : tokens doubleAndAddSource = _ := tokens_ofList _
  rw [parse, htokens]
  decide +kernel

/-! ## Going through an array -/

def ints (ns : List Int64) : Value := .array (ns.map .integer)

/-- The built-in functions that are called on the way. -/
def helpers : List Builtin := [.len, .first, .rest, .push]

/-- From the frame `g` the names mean what they mean to the writer of the helper. -/
structure Sees (w : World) (g : FrameId) (fn : Value) : Prop where
  fn : w.store.get? g "f" = some fn
  plain {b : Builtin} : b ∈ helpers → w.store.get? g b.name = none

/-- The frame `h` has the helper and the function `fn` for the items. -/
structure Iterates (w : World) (h : FrameId) (c : Closure) (fn : Value) : Prop where
  chain : ∃ l, w.store.Chain h l
  iter : w.store.get? h "iter" = some (.function c)
  sees : Sees w h fn

/-- In a frame with an array that begins with `n` and a state `s`, the expression gives the next
state and takes one call. -/
def Advances {σ : Type} (limit : Nat) (fn : Value) (acc : String) (step : Expr) (enc : σ → Value)
    (next : σ → Int64 → σ) : Prop :=
  ∀ (w : World) (g : FrameId) (s : σ) (n : Int64) (ns : List Int64), Sees w g fn →
    w.store.get? g "arr" = some (ints (n :: ns)) → w.store.get? g acc = some (enc s) →
    Takes limit w.store w.depth 1 ⟨.expr step g, [], w⟩ (some (enc (next s n)))

section

variable {limit : Nat} {w u : World} {f g h : FrameId} {fn : Value} {c : Closure} {ns : List Int64}
  {n : Int64} {num : Nat} {acc : String} {step initial : Expr} {slots : Slots}

theorem Iterates.keeps (hi : Iterates w h c fn) (hk : w.store.Keeps u.store) :
    Iterates u h c fn := by
  obtain ⟨l, hl⟩ := hi.chain
  have hget (x : String) : u.store.get? h x = w.store.get? h x := by
    rw [Store.get?, hl.find?_keeps hk, Store.get?]
  refine ⟨⟨l, hl.keeps hk⟩, (hget _).trans hi.iter, ⟨(hget _).trans hi.sees.fn, fun hb => ?_⟩⟩
  exact (hget _).trans (hi.sees.plain hb)

theorem ofNat_eq_zero_iff {k : Nat} (hk : k < 2 ^ 64) : Int64.ofNat k = 0 ↔ k = 0 := by
  constructor
  · intro h
    have hbits := congrArg (fun n : Int64 => n.toBitVec.toNat) h
    have hmod : k % 2 ^ 64 = 0 := by simpa using hbits
    rwa [Nat.mod_eq_of_lt hk] at hmod
  · intro h
    rw [h]
    rfl

/-- A built-in function is called with what is left of the array. -/
theorem Sees.evaluates_call {b : Builtin} {v : Value} (hsees : Sees w g fn) (hb : b ∈ helpers)
    (harr : w.store.get? g "arr" = some (ints ns)) (hcall : b.call [ints ns] w = (.ok v, w))
    (hv : ¬v.IsSignal) (limit : Option Nat) :
    Evaluates limit (.call (.ident b.name) [.ident "arr"]) g w v w :=
  Machine.evaluates_call (evaluates_builtin (hsees.plain hb)) (.cons (evaluates_ident harr id) .nil)
    (applies_builtin hcall hv)

/-- The test whether nothing is left. -/
theorem Sees.evaluates_isEmpty (hsees : Sees w g fn)
    (harr : w.store.get? g "arr" = some (ints ns)) (hn : ns.length < 2 ^ 64) (limit : Option Nat) :
    Evaluates limit (.binary (.call (.ident "len") [.ident "arr"]) .equal (.integer 0)) g w
      (.boolean ns.isEmpty) w := by
  have hcall : Evaluates limit (.call (.ident "len") [.ident "arr"]) g w
      (.integer (Int64.ofNat (ns.map Value.integer).length)) w :=
    hsees.evaluates_call (b := .len) (by decide) harr rfl id limit
  refine evaluates_binary hcall (evaluates_integer 0) ?_ id
  have hzero : (Int64.ofNat ns.length == 0) = ns.isEmpty := by
    rw [Bool.eq_iff_iff, beq_iff_eq, ofNat_eq_zero_iff hn, List.length_eq_zero_iff,
      List.isEmpty_iff]
  rw [List.length_map, BinaryOp.apply, BinaryOp.onIntegers, hzero]

/-- In the frame of a call of the helper there are its arguments, and the other names are those
around it. -/
theorem Iterates.enter (hacc : acc ∉ "arr" :: "iter" :: "f" :: helpers.map (·.name))
    (hw : Iterates w h (helper num acc step h) fn) (arr state : Value) :
    let u := w.enter (helper num acc step h) [arr, state]
    u.store.get? w.size "arr" = some arr ∧ u.store.get? w.size acc = some state ∧
      u.store.get? w.size "iter" = some (.function (helper num acc step h)) ∧
      Sees u w.size fn := by
  intro u
  obtain ⟨l, hl⟩ := hw.chain
  have hget (x : String) : u.store.get? w.size x =
      (Slots.get? (Slots.insert acc state (Slots.insert "arr" arr [])) x).or (w.store.get? h x) :=
    hl.get?_newFrame _ x
  simp only [List.mem_cons, not_or] at hacc
  obtain ⟨harr, hiter, hf, hhelpers⟩ := hacc
  have houter (x : String) (hx : x ≠ acc) (hx' : x ≠ "arr") :
      u.store.get? w.size x = w.store.get? h x := by
    rw [hget, Slots.get?_insert_other _ _ hx, Slots.get?_insert_other _ _ hx']
    rfl
  refine ⟨?_, ?_, ?_, ?_, fun hb => ?_⟩
  · rw [hget, Slots.get?_insert_other _ _ (Ne.symm harr), Slots.get?_insert_self, Option.some_or]
  · rw [hget, Slots.get?_insert_self, Option.some_or]
  · exact (houter _ (Ne.symm hiter) (by decide)).trans hw.iter
  · exact (houter _ (Ne.symm hf) (by decide)).trans hw.sees.fn
  · have hname : ∀ b ∈ helpers, b.name ≠ "arr" := by decide
    refine (houter _ (fun he => hhelpers ?_) (hname _ hb)).trans (hw.sees.plain hb)
    exact he ▸ List.mem_map_of_mem hb

/-- The helper goes through the array, one call for each item and one for the end. -/
theorem takes_iter {σ : Type} {enc : σ → Value} {next : σ → Int64 → σ}
    (hacc : acc ∉ "arr" :: "iter" :: "f" :: helpers.map (·.name)) (henc : ∀ s, ¬(enc s).IsSignal)
    (hstep : Advances limit fn acc step enc next) (hn : ns.length < 2 ^ 64)
    (hw : Iterates w h (helper num acc step h) fn) (s : σ) :
    Takes limit w.store w.depth (ns.length + 1)
      ⟨.apply (.function (helper num acc step h)) [ints ns, enc s], [], w⟩
      (some (enc (ns.foldl next s))) := by
  -- Each call has a frame of its own, and the frame of the helper stays as it was.
  induction ns generalizing w s with
  | nil =>
    obtain ⟨harr, hstate, -, hsees⟩ := hw.enter hacc (ints []) (enc s)
    have htest := hsees.evaluates_isEmpty harr hn (some limit)
    have hbranch : Takes limit w.store (w.depth + 1) 0
        ⟨.block [.expr (.ident acc)] w.size, [], w.enter (helper num acc step h) [ints [], enc s]⟩
        (some (enc s)) :=
      takes_zero (evaluates_ident hstate (henc s)).block (w.store.keeps_newFrame _ _)
    exact takes_apply (helper num acc step h) (Nat.le_refl _) (Takes.ifElse htest hbranch).block
  | cons n ns ih =>
    obtain ⟨harr, hstate, hiter, hsees⟩ := hw.enter hacc (ints (n :: ns)) (enc s)
    generalize hu : w.enter (helper num acc step h) [ints (n :: ns), enc s] = u at *
    have hkeeps : w.store.Keeps u.store := hu ▸ w.store.keeps_newFrame _ _
    have hdepth : u.depth = w.depth + 1 := hu ▸ rfl
    have htest := hsees.evaluates_isEmpty harr hn (some limit)
    have hrest :
        Evaluates (some limit) (.call (.ident "rest") [.ident "arr"]) w.size u (ints ns) u :=
      hsees.evaluates_call (b := .rest) (by decide) harr rfl id _
    have hnext (t : World) (ht : u.store.Keeps t.store) (hd : t.depth = u.depth) :
        Takes limit w.store u.depth (ns.length + 1)
          ⟨.apply (.function (helper num acc step h)) [ints ns, enc (next s n)], [], t⟩
          (some (enc (ns.foldl next (next s n)))) := by
      rw [← hd]
      have hall := hkeeps.trans ht
      exact (ih (Nat.lt_of_succ_lt hn) (hw.keeps hall) (next s n)).keeps hall
    have hcall := Takes.call_last (evaluates_ident hiter id) (.cons hrest .nil)
      (hstep _ _ s n ns hsees harr hstate) hnext
    rw [Nat.max_eq_right (Nat.le_add_left 1 _), hdepth] at hcall
    have hbody : Takes limit w.store (w.depth + 1) (ns.length + 1)
        ⟨.block (iterBody acc step) w.size, [], u⟩ (some (enc ((n :: ns).foldl next s))) :=
      (Takes.ifElse htest hcall.block).block
    rw [← hu] at hbody
    exact takes_apply (helper num acc step h) (Nat.le_refl _) hbody

/-! ## The functions for the items -/

/-- In the frame of a call there are its arguments. -/
theorem World.get?_enter {x : String} {v : Value} {arguments : List Value}
    (hx : Slots.get? (.ofList (c.parameters.zip arguments)) x = some v) :
    (w.enter c arguments).store.get? w.size x = some v := by
  have hframe : (w.enter c arguments).store.frames[w.size]? =
      some ⟨some c.frame, .ofList (c.parameters.zip arguments)⟩ := Array.getElem?_push_size
  rw [Store.get?, Store.find?_own hframe hx]
  rfl

theorem takes_double (num : Nat) (f : FrameId) (w : World) (n : Int64) :
    Takes limit w.store w.depth 1
      ⟨.apply (.function ⟨num, ["x"], doubleBody, f⟩) [.integer n], [], w⟩ (some (.integer (n * 2))) := by
  have hx : (w.enter ⟨num, ["x"], doubleBody, f⟩ [.integer n]).store.get? w.size "x" =
      some (.integer n) := World.get?_enter rfl
  have hbody : Evaluates (some limit) (.binary (.ident "x") .multiply (.integer 2)) w.size _
      (.integer (n * 2)) _ :=
    evaluates_binary (evaluates_ident hx id) (evaluates_integer 2) rfl id
  exact takes_apply ⟨num, ["x"], doubleBody, f⟩ (Nat.le_refl _)
    (takes_zero hbody.block (w.store.keeps_newFrame _ _))

theorem takes_add (num : Nat) (f : FrameId) (w : World) (a n : Int64) :
    Takes limit w.store w.depth 1
      ⟨.apply (.function ⟨num, ["acc", "x"], addBody, f⟩) [.integer a, .integer n], [], w⟩
      (some (.integer (a + n))) := by
  have hacc : (w.enter ⟨num, ["acc", "x"], addBody, f⟩ [.integer a, .integer n]).store.get? w.size
      "acc" = some (.integer a) := World.get?_enter rfl
  have hx : (w.enter ⟨num, ["acc", "x"], addBody, f⟩ [.integer a, .integer n]).store.get? w.size
      "x" = some (.integer n) := World.get?_enter rfl
  have hbody : Evaluates (some limit) (.binary (.ident "acc") .add (.ident "x")) w.size _
      (.integer (a + n)) _ :=
    evaluates_binary (evaluates_ident hacc id) (evaluates_ident hx id) rfl id
  exact takes_apply ⟨num, ["acc", "x"], addBody, f⟩ (Nat.le_refl _)
    (takes_zero hbody.block (w.store.keeps_newFrame _ _))

theorem Sees.evaluates_first (hsees : Sees w g fn)
    (harr : w.store.get? g "arr" = some (ints (n :: ns))) (limit : Option Nat) :
    Evaluates limit (.call (.ident "first") [.ident "arr"]) g w (.integer n) w :=
  hsees.evaluates_call (b := .first) (by decide) harr rfl id limit

theorem advances_map {op : Int64 → Int64} (hs : ¬fn.IsSignal)
    (hfn : ∀ w n, Takes limit w.store w.depth 1 ⟨.apply fn [.integer n], [], w⟩
      (some (.integer (op n)))) :
    Advances limit fn "acc" mapStep ints fun l n => l ++ [op n] := by
  intro w g l n ns hsees harr hacc
  have hf := Takes.call (evaluates_ident hsees.fn hs) (.cons (hsees.evaluates_first harr _) .nil)
    (hfn w n)
  have hpush (u : World) :
      Builtin.call .push ([ints l] ++ [.integer (op n)]) u = (.ok (ints (l ++ [op n])), u) := by
    simp [Builtin.call, ints]
  exact Takes.call_last (evaluates_builtin (b := .push) (hsees.plain (by decide)))
    (.cons (evaluates_ident hacc id) .nil) hf fun u hu _ =>
      takes_zero (applies_builtin (hpush u) id) hu

theorem advances_reduce {op : Int64 → Int64 → Int64} (hs : ¬fn.IsSignal)
    (hfn : ∀ w a n, Takes limit w.store w.depth 1 ⟨.apply fn [.integer a, .integer n], [], w⟩
      (some (.integer (op a n)))) :
    Advances limit fn "result" reduceStep .integer op := by
  intro w g a n ns hsees harr hacc
  exact Takes.call (evaluates_ident hsees.fn hs)
    (.cons (evaluates_ident hacc id) (.cons (hsees.evaluates_first harr _) .nil)) (hfn w a n)

/-! ## Map and reduce -/

/-- The names of the built-in functions have no other meaning in the frame. -/
def Slots.Plain (slots : Slots) : Prop := ∀ b ∈ helpers, slots.get? b.name = none

theorem Slots.Plain.insert (h : slots.Plain) {x : String} (hx : x ∉ helpers.map (·.name))
    (v : Value) : (slots.insert x v).Plain := by
  intro b hb
  have hne : b.name ≠ x := fun he => hx (he ▸ List.mem_map_of_mem hb)
  rw [Slots.get?_insert_other _ _ hne, h b hb]

theorem Slots.plain_nil : Slots.Plain [] := fun _ _ => rfl

/-- The frame `h` with these slots is right under a global frame, and neither has a name of a
built-in function. -/
structure World.Opened (w : World) (h : FrameId) (own : Slots) : Prop where
  global : ∃ f slots, f < h ∧ w.store.frames[f]? = some ⟨none, slots⟩ ∧ slots.Plain ∧
    w.store.frames[h]? = some ⟨some f, own⟩
  plain : own.Plain

variable {own : Slots}

theorem World.opened_enter (c : Closure) (arguments : List Value)
    (hf : w.store.frames[c.frame]? = some ⟨none, slots⟩) (hplain : slots.Plain)
    (hown : Slots.Plain (.ofList (c.parameters.zip arguments))) :
    (w.enter c arguments).Opened w.size (.ofList (c.parameters.zip arguments)) := by
  have hlt : c.frame < w.size := (Array.getElem?_eq_some_iff.1 hf).1
  exact ⟨⟨c.frame, slots, hlt, w.store.keeps_newFrame _ _ _ _ hf, hplain, Array.getElem?_push_size⟩,
    hown⟩

theorem World.Opened.keeps (hw : w.Opened h own) (hk : w.store.Keeps u.store) : u.Opened h own := by
  obtain ⟨f, slots, hlt, hf, hplain, hh⟩ := hw.global
  exact ⟨⟨f, slots, hlt, hk _ _ hf, hplain, hk _ _ hh⟩, hw.plain⟩

/-- Another name in the frame. -/
theorem World.Opened.define (hw : w.Opened h own) {x : String} (hx : x ∉ helpers.map (·.name))
    (v : Value) : (w.define h x v).Opened h (own.insert x v) := by
  obtain ⟨f, slots, hlt, hf, hplain, hh⟩ := hw.global
  refine ⟨⟨f, slots, hlt, ?_, hplain, World.frames_define_self hh x v⟩, hw.plain.insert hx v⟩
  exact (World.frames_define_other (Nat.ne_of_gt hlt) _ _ _).trans hf

theorem World.Opened.get? (hw : w.Opened h own) {x : String} {v : Value}
    (hx : own.get? x = some v) : w.store.get? h x = some v := by
  obtain ⟨f, slots, -, -, -, hh⟩ := hw.global
  rw [Store.get?, Store.find?_own hh hx]
  rfl

theorem World.Opened.iterates (hw : w.Opened h own) (hfn : own.get? "f" = some fn)
    (hiter : own.get? "iter" = some (.function c)) : Iterates w h c fn := by
  refine ⟨?_, hw.get? hiter, hw.get? hfn, fun {b} hb => ?_⟩
  · obtain ⟨f, slots, -, hf, -, hh⟩ := hw.global
    exact ⟨_, .under hh rfl (.root hf rfl)⟩
  · obtain ⟨f, slots, -, hf, hplain, hh⟩ := hw.global
    rw [(Store.Chain.root hf rfl).get?_under hh rfl, Store.get?_root hf rfl, hw.plain b hb,
      hplain b hb]
    rfl

/-- The helper is bound to its name in the frame and called. -/
theorem takes_iteration {σ : Type} {enc : σ → Value} {next : σ → Int64 → σ} {s : σ} {base : Store}
    (hacc : acc ∉ "arr" :: "iter" :: "f" :: helpers.map (·.name)) (henc : ∀ s, ¬(enc s).IsSignal)
    (hstep : Advances limit fn acc step enc next) (hn : ns.length < 2 ^ 64)
    (hw : w.Opened h own) (harr : own.get? "arr" = some (ints ns))
    (hfn : own.get? "f" = some fn)
    (hinitial : ∀ (u : World) (v : Value), u.Opened h (own.insert "iter" v) →
      Evaluates (some limit) initial h u (enc s) u)
    (hbase : base.Keeps w.store) (hnew : base.frames.size ≤ h) :
    Takes limit base w.depth (ns.length + 1) ⟨.block (iteration acc step initial) h, [], w⟩
      (some (enc (ns.foldl next s))) := by
  have hkept := hw.keeps (.refl (w.newFunction ["arr", acc] (iterBody acc step) h).2.store)
  have hdefine := hkept.define (x := "iter") (by decide)
    (.function (helper w.functions acc step h))
  have hiter := Slots.get?_insert_self own "iter" (.function (helper w.functions acc step h))
  have hother {x : String} {v : Value} (hx : own.get? x = some v) (hne : x ≠ "iter") :=
    (Slots.get?_insert_other own (.function (helper w.functions acc step h)) hne).trans hx
  have happly := takes_iter hacc henc hstep hn (hdefine.iterates (hother hfn (by decide)) hiter) s
  have hcall := Takes.call (evaluates_ident (hdefine.get? hiter) id)
    (.cons (evaluates_ident (hdefine.get? (hother harr (by decide))) id)
      (.cons (hinitial _ _ hdefine) .nil)) (happly.keeps (hbase.define hnew _ _))
  exact hcall.block.after_define (evaluates_function _ _)

/-- `map` takes two calls more than there are items. -/
theorem takes_map {op : Int64 → Int64} (hs : ¬fn.IsSignal)
    (hfn : ∀ w n, Takes limit w.store w.depth 1 ⟨.apply fn [.integer n], [], w⟩
      (some (.integer (op n))))
    (hf : w.store.frames[f]? = some ⟨none, slots⟩) (hplain : slots.Plain)
    (hn : ns.length < 2 ^ 64) (num : Nat) :
    Takes limit w.store w.depth (ns.length + 2)
      ⟨.apply (.function ⟨num, ["arr", "f"], mapBody, f⟩) [ints ns, fn], [], w⟩
      (some (ints (ns.map op))) := by
  have hown : Slots.Plain (.insert "f" fn (.insert "arr" (ints ns) [])) :=
    (Slots.plain_nil.insert (by decide) _).insert (by decide) _
  have hopened := World.opened_enter ⟨num, ["arr", "f"], mapBody, f⟩ [ints ns, fn] hf hplain hown
  have hbody := takes_iteration (s := []) (by decide) (fun _ => id) (advances_map hs hfn) hn hopened
    rfl rfl (fun _ _ _ => evaluates_array .nil) (w.store.keeps_newFrame _ _) (Nat.le_refl _)
  have hmap : ns.foldl (fun l n => l ++ [op n]) [] = ns.map op := by
    rw [List.foldl_append_eq_append, List.nil_append, ← List.flatMap_def]
    exact List.flatMap_pure_eq_map op ns
  rw [hmap] at hbody
  exact takes_apply ⟨num, ["arr", "f"], mapBody, f⟩ (Nat.le_refl _) hbody

/-- `reduce` takes two calls more than there are items. -/
theorem takes_reduce {op : Int64 → Int64 → Int64} (hs : ¬fn.IsSignal)
    (hfn : ∀ w a n, Takes limit w.store w.depth 1 ⟨.apply fn [.integer a, .integer n], [], w⟩
      (some (.integer (op a n))))
    (hf : w.store.frames[f]? = some ⟨none, slots⟩) (hplain : slots.Plain)
    (hn : ns.length < 2 ^ 64) (num : Nat) (a : Int64) :
    Takes limit w.store w.depth (ns.length + 2)
      ⟨.apply (.function ⟨num, ["arr", "initial", "f"], reduceBody, f⟩) [ints ns, .integer a, fn],
        [], w⟩ (some (.integer (ns.foldl op a))) := by
  have hown : Slots.Plain
      (.insert "f" fn (.insert "initial" (.integer a) (.insert "arr" (ints ns) []))) :=
    ((Slots.plain_nil.insert (by decide) _).insert (by decide) _).insert (by decide) _
  have hopened := World.opened_enter ⟨num, ["arr", "initial", "f"], reduceBody, f⟩
    [ints ns, .integer a, fn] hf hplain hown
  have hbody := takes_iteration (s := a) (by decide) (fun _ => id) (advances_reduce hs hfn) hn
    hopened rfl rfl (fun _ _ hu => evaluates_ident (hu.get? (x := "initial") rfl) id)
    (w.store.keeps_newFrame _ _) (Nat.le_refl _)
  exact takes_apply ⟨num, ["arr", "initial", "f"], reduceBody, f⟩ (Nat.le_refl _) hbody

/-! ## The whole program -/

theorem takes_adding {base : Store} (hf : w.store.frames[f]? = some ⟨none, slots⟩)
    (hplain : slots.Plain)
    (hreduce : slots.get? "reduce" = some (.function ⟨num, ["arr", "initial", "f"], reduceBody, f⟩))
    (hdoubled : slots.get? "doubled" = some (ints ns)) (hn : ns.length < 2 ^ 64)
    (hbase : base.Keeps w.store) :
    Takes limit base w.depth (ns.length + 2) ⟨.block [.expr adding] f, [], w⟩
      (some (.integer (ns.foldl (· + ·) 0))) := by
  have hget := Store.get?_root hf rfl
  have hsum : Takes limit w.store w.depth (ns.length + 2)
      ⟨.apply (.function ⟨num, ["arr", "initial", "f"], reduceBody, f⟩)
        [ints ns, .integer 0, .function ⟨w.functions, ["acc", "x"], addBody, f⟩], [],
        (w.newFunction ["acc", "x"] addBody f).2⟩ (some (.integer (ns.foldl (· + ·) 0))) :=
    takes_reduce (w := (w.newFunction ["acc", "x"] addBody f).2) id (takes_add w.functions f) hf
      hplain hn num 0
  exact (Takes.call (evaluates_ident ((hget _).trans hreduce) id)
    (.cons (evaluates_ident ((hget _).trans hdoubled) id)
      (.cons (evaluates_integer 0) (.cons (evaluates_function _ _) .nil)))
    (hsum.keeps hbase)).block

theorem takes_doubling (hf : w.store.frames[f]? = some ⟨none, slots⟩) (hplain : slots.Plain)
    (hmap : slots.get? "map" = some (.function ⟨num, ["arr", "f"], mapBody, f⟩))
    (hxs : slots.get? "xs" = some (ints ns)) (hn : ns.length < 2 ^ 64) :
    Takes limit w.store w.depth (ns.length + 2) ⟨.expr doubling f, [], w⟩
      (some (ints (ns.map (· * 2)))) := by
  have hget := Store.get?_root hf rfl
  have hdoubles : Takes limit w.store w.depth (ns.length + 2)
      ⟨.apply (.function ⟨num, ["arr", "f"], mapBody, f⟩)
        [ints ns, .function ⟨w.functions, ["x"], doubleBody, f⟩], [],
        (w.newFunction ["x"] doubleBody f).2⟩ (some (ints (ns.map (· * 2)))) :=
    takes_map (w := (w.newFunction ["x"] doubleBody f).2) id (takes_double w.functions f) hf
      hplain hn num
  exact Takes.call (evaluates_ident ((hget _).trans hmap) id)
    (.cons (evaluates_ident ((hget _).trans hxs) id) (.cons (evaluates_function _ _) .nil))
    hdoubles

/-- With the two functions in the global frame, the rest of the program takes two calls more than
there are items. -/
theorem takes_doubled {m : Nat} (hf : w.store.frames[f]? = some ⟨none, slots⟩)
    (hplain : slots.Plain)
    (hmap : slots.get? "map" = some (.function ⟨m, ["arr", "f"], mapBody, f⟩))
    (hreduce : slots.get? "reduce" = some (.function ⟨num, ["arr", "initial", "f"], reduceBody, f⟩))
    (hxs : slots.get? "xs" = some (ints ns)) (hn : ns.length < 2 ^ 64) :
    Takes limit .empty w.depth (ns.length + 2)
      ⟨.block [.define "doubled" doubling, .expr adding] f, [], w⟩
      (some (.integer ((ns.map (· * 2)).foldl (· + ·) 0))) := by
  have hlength : (ns.map (· * 2)).length = ns.length := List.length_map _
  have hadding (u : World) (hu : w.store.Keeps u.store) (hd : u.depth = w.depth) :
      Takes limit .empty w.depth (ns.length + 2)
        ⟨.block [.expr adding] f, [], u.define f "doubled" (ints (ns.map (· * 2)))⟩
        (some (.integer ((ns.map (· * 2)).foldl (· + ·) 0))) := by
    have hreduce' := (Slots.get?_insert_other slots (ints (ns.map (· * 2)))
      (by decide : "reduce" ≠ "doubled")).trans hreduce
    rw [← hd, ← hlength]
    exact takes_adding (World.frames_define_self (hu _ _ hf) _ _) (hplain.insert (by decide) _)
      hreduce' (Slots.get?_insert_self _ _ _) (hlength ▸ hn) nofun
  have hall := (takes_doubling hf hplain hmap hxs hn).define hadding
  rwa [Nat.max_self] at hall

/-- The program takes two calls more than there are items. -/
theorem takes_doubleAndAdd (hf : w.store.frames[f]? = some ⟨none, slots⟩) (hplain : slots.Plain)
    (hxs : slots.get? "xs" = some (ints ns)) (hn : ns.length < 2 ^ 64) :
    Takes limit .empty w.depth (ns.length + 2) (load doubleAndAdd f w)
      (some (.integer ((ns.map (· * 2)).foldl (· + ·) 0))) := by
  let map := w.newFunction ["arr", "f"] mapBody f
  let u := map.2.define f "map" map.1
  let reduce := u.newFunction ["arr", "initial", "f"] reduceBody f
  let t := reduce.2.define f "reduce" reduce.1
  have hu : u.store.frames[f]? = _ := World.frames_define_self hf "map" map.1
  have ht : t.store.frames[f]? = _ := World.frames_define_self hu "reduce" reduce.1
  have hget {x : String} {v : Value} (hx : x ≠ "reduce")
      (h : (slots.insert "map" map.1).get? x = some v) :=
    (Slots.get?_insert_other (slots.insert "map" map.1) reduce.1 hx).trans h
  have hxs' := (Slots.get?_insert_other slots map.1 (by decide : "xs" ≠ "map")).trans hxs
  have hrest : Takes limit .empty w.depth (ns.length + 2)
      ⟨.block [.define "doubled" doubling, .expr adding] f, [], t⟩ _ :=
    takes_doubled (w := t) ht ((hplain.insert (by decide) _).insert (by decide) _)
      (hget (by decide) (Slots.get?_insert_self _ _ _)) (Slots.get?_insert_self _ _ _)
      (hget (by decide) hxs') hn
  exact (hrest.after_define (evaluates_function _ _)).after_define (evaluates_function _ _)

theorem toInt_add_modEq (m n : Int64) : (m + n).toInt ≡ m.toInt + n.toInt [ZMOD 2 ^ 64] := by
  rw [Int64.toInt_add]
  exact Int.bmod_emod

theorem toInt_mul_modEq (m n : Int64) : (m * n).toInt ≡ m.toInt * n.toInt [ZMOD 2 ^ 64] := by
  rw [Int64.toInt_mul]
  exact Int.bmod_emod

/-- The sum is right up to multiples of 2 ^ 64. -/
theorem toInt_foldl_modEq (ns : List Int64) (a : Int64) :
    ((ns.map (· * 2)).foldl (· + ·) a).toInt ≡ a.toInt + 2 * (ns.map (·.toInt)).sum
      [ZMOD 2 ^ 64] := by
  induction ns generalizing a with
  | nil => simp
  | cons n ns ih =>
    have hstep : (a + n * 2).toInt ≡ a.toInt + n.toInt * 2 [ZMOD 2 ^ 64] :=
      (toInt_add_modEq a (n * 2)).trans ((toInt_mul_modEq n 2).add_left _)
    have hrest := (ih (a + n * 2)).trans (hstep.add_right _)
    have heq : a.toInt + n.toInt * 2 + 2 * (ns.map (·.toInt)).sum =
        a.toInt + 2 * ((n :: ns).map (·.toInt)).sum := by
      simp only [List.map_cons, List.sum_cons]
      omega
    rwa [heq] at hrest

end

/-- The program gives twice the sum of the integers, with 64 bits, for every array that leaves room
for two calls more than it has items. For every longer one it fails at the limit on calls: where
there are 2 ^ 64 items, which no memory has room for, the number of `len` would begin again. -/
theorem run_doubleAndAdd (draws : Nat → Nat) (ns : List Int64) :
    let session := (Session.fresh draws).define "xs" (.array (ns.map .integer))
    (ns.length ≤ 19998 → ∃ k r t,
      session.run k doubleAndAddSource = some (.value (.integer r), t) ∧
        -2 ^ 63 ≤ r.toInt ∧ r.toInt ≤ 2 ^ 63 - 1 ∧
        r.toInt ≡ 2 * (ns.map (·.toInt)).sum [ZMOD 2 ^ 64]) ∧
    (19999 ≤ ns.length → ns.length < 2 ^ 64 → ∃ k e t,
      session.run k doubleAndAddSource = some (.value (.signal (.fault e)), t) ∧
        e.message = "maximum recursion depth exceeded (20000)") := by
  intro session
  obtain ⟨hprogram, herrors⟩ := parse_doubleAndAddSource
  have htakes (hn : ns.length < 2 ^ 64) : Takes callLimit .empty 0 (ns.length + 2)
      (load doubleAndAdd 0 session.world) (some (.integer ((ns.map (· * 2)).foldl (· + ·) 0))) :=
    takes_doubleAndAdd (w := session.world) rfl (Slots.plain_nil.insert (by decide) _) rfl hn
  constructor
  · intro hroom
    obtain ⟨u, hu, -⟩ := (htakes (by omega)).ends (by unfold callLimit; omega)
    obtain ⟨k, hrun⟩ := Session.run_of_ends (s := session) hprogram herrors hu
    have hsum := toInt_foldl_modEq ns 0
    rw [Int64.toInt_zero, zero_add] at hsum
    exact ⟨k, _, _, hrun, Int64.le_toInt _, Int64.toInt_le _, hsum⟩
  · intro hlong hn
    obtain ⟨u, hu⟩ := (htakes hn).deep (Nat.zero_le _) (by unfold callLimit; omega)
    obtain ⟨k, hrun⟩ := Session.run_of_ends (s := session) hprogram herrors hu
    exact ⟨k, _, _, hrun, by decide⟩

/-- An array whose sum has no room in 64 bits, and one that is too long by an item. -/
theorem run_doubleAndAdd_boundary :
    (∃ k r t, ((Session.fresh id).define "xs"
        (.array ([Int64.maxValue, 5, -3].map .integer))).run k doubleAndAddSource =
          some (.value (.integer r), t) ∧
        -2 ^ 63 ≤ r.toInt ∧ r.toInt ≤ 2 ^ 63 - 1 ∧
        r.toInt ≡ 2 * ([Int64.maxValue, 5, -3].map (·.toInt)).sum [ZMOD 2 ^ 64]) ∧
    ∃ k e t, ((Session.fresh id).define "xs"
        (.array ((List.replicate 19999 1).map .integer))).run k doubleAndAddSource =
          some (.value (.signal (.fault e)), t) ∧
        e.message = "maximum recursion depth exceeded (20000)" := by
  have hlength : (List.replicate 19999 (1 : Int64)).length = 19999 := List.length_replicate
  constructor
  · exact (run_doubleAndAdd id [Int64.maxValue, 5, -3]).1 (by decide)
  · exact (run_doubleAndAdd id (List.replicate 19999 1)).2 hlength.ge (by rw [hlength]; decide)

end MonkeyLang
