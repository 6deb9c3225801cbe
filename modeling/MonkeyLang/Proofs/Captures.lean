/-
Functions that are made in the passes of a loop. Each pass has a frame of its
own for the loop variable, and the functions that are made in it share this
frame and no other: what one of them assigns, the others of the same pass read,
and those of other passes do not.
-/
import MonkeyLang.Proofs.Chains
import MonkeyLang.Proofs.Counting
import MonkeyLang.Proofs.Evaluation
import MonkeyLang.Proofs.Lexing
import MonkeyLang.Session

namespace MonkeyLang

open Machine

/-! ## The program -/

/-- For each item, a function that reads the loop variable and one that assigns to it. -/
def accessorSource : String :=
  "let fs = []; for (x in xs) { fs = push(fs, [fn() { x }, fn(v) { x = v }]); }"

def getterBody : Block := [.expr (.ident "x")]

def setterBody : Block := [.expr (.assign "x" (.ident "v"))]

/-- `fs = push(fs, [fn() { x }, fn(v) { x = v }])` -/
def accessorPass : Expr :=
  .assign "fs" (.call (.ident "push")
    [.ident "fs", .array [.function [] getterBody, .function ["v"] setterBody]])

def accessorProgram : Program :=
  [.define "fs" (.array []), .expr (.forIn "x" (.ident "xs") [.expr accessorPass])]

theorem parse_accessorSource :
    (parse accessorSource).program = accessorProgram ∧ (parse accessorSource).errors = [] := by
  have htokens : tokens accessorSource = _ := tokens_ofList _
  rw [parse, htokens]
  decide +kernel

/-- The two functions of the pass with frame `g`, the first of which has the number `n`. -/
def accessorPair (n : Nat) (g : FrameId) : Value :=
  .array [.function ⟨n, [], getterBody, g⟩, .function ⟨n + 1, ["v"], setterBody, g⟩]

/-- The functions of all passes. -/
def accessors (n : Nat) (g : FrameId) (count : Nat) : List Value :=
  (List.range count).map fun j => accessorPair (n + 2 * j) (g + j)

/-! ## What the frames hold -/

/-- In the global frame `f` are the array and the functions, and in the frames of the passes, from
`g` on, these values of the loop variable. -/
structure Captured (w : World) (f : FrameId) (xs : List Value) (n : Nat) (g : FrameId)
    (vs : List Value) : Prop where
  globals : ∃ slots : Slots, w.store.frames[f]? = some ⟨none, slots⟩ ∧
    slots.get? "xs" = some (.array xs) ∧ slots.get? "push" = none ∧
    slots.get? "fs" = some (.array (accessors n g vs.length))
  base : f < g
  pass {j : Nat} {v : Value} : vs[j]? = some v →
    w.store.frames[g + j]? = some ⟨some f, [("x", v)]⟩

section

variable {w u : World} {f g : FrameId} {xs vs : List Value} {n i j : Nat} {v t : Value}
  {limit : Option Nat} {slots : Slots} {x : String}

theorem accessors_succ (n : Nat) (g : FrameId) (count : Nat) :
    accessors n g (count + 1) =
      accessors n g count ++ [accessorPair (n + 2 * count) (g + count)] := by
  simp [accessors, List.range_succ]

/-- The global frame and those of the passes stay if there is one frame more. -/
theorem Captured.keeps (h : Captured w f xs n g vs) (hw : w.store.Keeps u.store) :
    Captured u f xs n g vs := by
  obtain ⟨slots, hf, hslots⟩ := h.globals
  exact ⟨⟨slots, hw f _ hf, hslots⟩, h.base, fun hv => hw _ _ (h.pass hv)⟩

/-! ## Making the functions -/

/-- The world after a pass for the item `v`, with these functions in the array. -/
def World.afterPass (w : World) (f : FrameId) (v : Value) (fs : List Value) : World :=
  { (w.newFrame (some f) [("x", v)]).2 with functions := w.functions + 2 }.define f "fs" (.array fs)

/-- What a pass does in its frame: it makes two functions and adds them to the array. -/
theorem evaluates_accessorPass {items : List Value} (hpush : w.store.get? g "push" = none)
    (hfs : w.store.get? g "fs" = some (.array items)) (hf : w.store.resolve? g "fs" = some f) :
    Evaluates limit accessorPass g w (.array (items ++ [accessorPair w.functions g]))
      ({ w with functions := w.functions + 2 }.define f "fs"
        (.array (items ++ [accessorPair w.functions g]))) := by
  have harray : Evaluates limit (.array [.function [] getterBody, .function ["v"] setterBody]) g w
      (accessorPair w.functions g) { w with functions := w.functions + 2 } :=
    evaluates_array (.cons (evaluates_function _ _) (.cons (evaluates_function _ _) .nil))
  have hcall := evaluates_call (evaluates_builtin (b := .push) hpush)
    (.cons (evaluates_ident hfs id) (.cons harray .nil)) (applies_builtin (b := .push) rfl id)
  exact evaluates_assign hcall hf

/-- A pass makes its two functions in a new frame, in which the other names are the global ones. -/
theorem Captured.evaluates_pass (h : Captured w f xs n g vs) (hsize : w.size = g + vs.length)
    (hn : w.functions = n + 2 * vs.length) (limit : Option Nat) (v : Value) :
    Evaluates limit accessorPass w.size (w.newFrame (some f) [("x", v)]).2
      (.array (accessors n g (vs.length + 1)))
      (w.afterPass f v (accessors n g (vs.length + 1))) := by
  obtain ⟨slots, hf, -, hpush, hfs⟩ := h.globals
  have hchain : w.store.Chain f [f] := .root hf rfl
  have hget (x : String) (hx : x ≠ "x") :
      (w.newFrame (some f) [("x", v)]).2.store.get? w.size x = slots.get? x := by
    refine (hchain.get?_newFrame _ _).trans ?_
    rw [Store.get?_root hf rfl]
    simp [Slots.get?, hx.symm]
  have hresolve : (w.newFrame (some f) [("x", v)]).2.store.resolve? w.size "fs" = some f := by
    refine (hchain.resolve?_newFrame (by simp [Slots.get?])).trans ?_
    rw [Store.resolve?, Store.find?_root hf rfl, hfs]
    rfl
  rw [accessors_succ, ← hn, ← hsize]
  exact evaluates_accessorPass ((hget _ (by decide)).trans hpush)
    ((hget _ (by decide)).trans hfs) hresolve

theorem Captured.afterPass (h : Captured w f xs n g vs) (hsize : w.size = g + vs.length)
    (v : Value) :
    Captured (w.afterPass f v (accessors n g (vs.length + 1))) f xs n g (vs ++ [v]) := by
  obtain ⟨slots, hf, hxs, hpush, -⟩ := h.globals
  have hlt : f < w.size := (Array.getElem?_eq_some_iff.1 hf).1
  have hold : (w.newFrame (some f) [("x", v)]).2.store.frames[f]? = some ⟨none, slots⟩ :=
    (World.frames_newFrame hlt _ _).trans hf
  refine ⟨⟨_, World.frames_define_self hold _ _, ?_, ?_, ?_⟩, h.base, ?_⟩
  · rw [Slots.get?_insert_other _ _ (by decide), hxs]
  · rw [Slots.get?_insert_other _ _ (by decide), hpush]
  · rw [Slots.get?_insert_self, List.length_append, List.length_singleton]
  · intro j t ht
    have hne : f ≠ g + j := Nat.ne_of_lt (Nat.lt_add_right j h.base)
    refine (World.frames_define_other hne _ _ _).trans ?_
    by_cases hj : j < vs.length
    · rw [List.getElem?_append_left hj] at ht
      have hframe := h.pass ht
      exact (World.frames_newFrame (Array.getElem?_eq_some_iff.1 hframe).1 _ _).trans hframe
    · rw [List.getElem?_append_right (Nat.not_lt.1 hj), List.getElem?_singleton] at ht
      split at ht
      · next heq =>
        obtain rfl := Option.some.inj ht
        have hlast : j = vs.length := by omega
        rw [hlast, ← hsize]
        exact Array.getElem?_push_size
      · cases ht

/-- Pass by pass, the loop makes the functions of all items. -/
theorem Captured.loop_ends (h : Captured w f xs n g vs) (hsize : w.size = g + vs.length)
    (hn : w.functions = n + 2 * vs.length) (limit : Option Nat) (items : List Value) {r : Value}
    (hr : ¬r.IsSignal) :
    ∃ r' u, Ends limit (forPass "x" items [.expr accessorPass] f r [] w) (.ok (some r')) u ∧
      ¬r'.IsSignal ∧ Captured u f xs n g (vs ++ items) := by
  induction items generalizing w vs r with
  | nil => exact ⟨r, w, ends_done (.refl _), hr, by rwa [List.append_nil]⟩
  | cons v items ih =>
    have hpass := (h.evaluates_pass hsize hn limit v).block
    have hnext := h.afterPass hsize v
    generalize accessors n g (vs.length + 1) = fs at hpass hnext
    have hlength : (vs ++ [v]).length = vs.length + 1 := List.length_append
    have hsize' : (w.afterPass f v fs).size = g + (vs ++ [v]).length := by
      rw [World.afterPass, World.size_define, hlength, ← Nat.add_assoc, ← hsize]
      exact Array.size_push _
    have hn' : (w.afterPass f v fs).functions = n + 2 * (vs ++ [v]).length := by
      rw [hlength, Nat.mul_add, ← Nat.add_assoc, ← hn]
      rfl
    obtain ⟨r', u, hrest, hr', hu⟩ := ih hnext hsize' hn' (r := .array fs) id
    rw [List.append_assoc] at hu
    exact ⟨r', u, ends_forPass_cons hpass hrest, hr', hu⟩

/-! ## Calling them -/

/-- A call of one of the functions. -/
inductive Access where
  | get (i : Nat)
  | set (i : Nat) (v : Value)

namespace Access

/-- There is such a function, and an integer for its position. -/
def Fits (count : Nat) : Access → Prop
  | get i => i < count ∧ i < 2 ^ 63
  | set i v => i < count ∧ i < 2 ^ 63 ∧ ¬v.IsSignal

/-- `fs[i][0]` or `fs[i][1]` -/
def callee : Access → Expr
  | get i => .index (.index (.ident "fs") (.integer (Int64.ofNat i))) (.integer 0)
  | set i _ => .index (.index (.ident "fs") (.integer (Int64.ofNat i))) (.integer 1)

/-- The function that is called, where those of the passes have the frames from `g` on and the
numbers from `n` on. -/
def function (n : Nat) (g : FrameId) : Access → Value
  | get i => .function ⟨n + 2 * i, [], getterBody, g + i⟩
  | set i _ => .function ⟨n + 2 * i + 1, ["v"], setterBody, g + i⟩

def arguments : Access → List Value
  | get _ => []
  | set _ v => [v]

/-- The values of the variables after the call. -/
def update : Access → List Value → List Value
  | get _, vs => vs
  | set i v, vs => vs.set i v

/-- The value that the call passes to the setter of variable `i`. -/
def passed? (i : Nat) : Access → Option Value
  | get _ => none
  | set j v => if j = i then some v else none

end Access

/-- The calls are made one after another in frame `f` and give these results. -/
inductive Calls (limit : Option Nat) (f : FrameId) :
    World → List Access → List Value → World → Prop
  | nil {w : World} : Calls limit f w [] [] w
  | cons {a : Access} {calls : List Access} {c r : Value} {rs : List Value} {w u t w' : World} :
      Evaluates limit a.callee f w c u → Applies limit c a.arguments u r t →
      Calls limit f t calls rs w' → Calls limit f w (a :: calls) (r :: rs) w'

theorem getElem?_accessors {count : Nat} (hi : i < count) :
    (accessors n g count)[i]? = some (accessorPair (n + 2 * i) (g + i)) := by
  simp [accessors, hi]

/-- The functions are reached through the global variable. -/
theorem Captured.evaluates_callee (h : Captured w f xs n g vs) {a : Access}
    (ha : a.Fits vs.length) : Evaluates limit a.callee f w (a.function n g) w := by
  obtain ⟨slots, hf, -, -, hfs⟩ := h.globals
  have hget : w.store.get? f "fs" = some (.array (accessors n g vs.length)) :=
    (Store.get?_root hf rfl _).trans hfs
  have hpair {i : Nat} (hi : i < vs.length) (hshort : i < 2 ^ 63) :
      Evaluates limit (.index (.ident "fs") (.integer (Int64.ofNat i))) f w
        (accessorPair (n + 2 * i) (g + i)) w :=
    evaluates_index (evaluates_ident hget id) (evaluates_integer _)
      (counter_member hshort (getElem?_accessors hi)) id
  cases a with
  | get i => exact evaluates_index (hpair ha.1 ha.2) (evaluates_integer 0) rfl id
  | set i v => exact evaluates_index (hpair ha.1 ha.2.1) (evaluates_integer 1) rfl id

/-- The frame of a pass is under the global one. -/
theorem Captured.chain (h : Captured w f xs n g vs) (hv : vs[i]? = some v) :
    w.store.Chain (g + i) [g + i, f] := by
  obtain ⟨slots, hf, -⟩ := h.globals
  exact .under (h.pass hv) rfl (.root hf rfl)

/-- In the frame of a call the loop variable is the one of the pass. -/
theorem Captured.find?_call (h : Captured w f xs n g vs) (hv : vs[i]? = some v) (own : Slots)
    (hx : own.get? "x" = none) :
    (w.newFrame (some (g + i)) own).2.store.find? w.size "x" = some (g + i, v) := by
  have hpass : w.store.find? (g + i) "x" = some (g + i, v) :=
    Store.find?_own (h.pass hv) (by simp [Slots.get?])
  refine ((h.chain hv).find?_newFrame own "x").trans ?_
  rw [hx, hpass]
  rfl

theorem Captured.applies_getter (h : Captured w f xs n g vs) (hv : vs[i]? = some v)
    (hs : ¬v.IsSignal) (hd : ∀ n ∈ limit, w.depth < n) (m : Nat) :
    ∃ u, Applies limit (.function ⟨m, [], getterBody, g + i⟩) [] w v u ∧
      Captured u f xs n g vs := by
  have hx : (w.enter ⟨m, [], getterBody, g + i⟩ []).store.get? w.size "x" = some v :=
    Option.map_eq_some_iff.2 ⟨_, h.find?_call hv [] rfl, rfl⟩
  have happlies := applies_function ⟨m, [], getterBody, g + i⟩ (Nat.le_refl _) hd
    (evaluates_ident hx hs).block
  exact ⟨_, happlies, h.keeps (Store.keeps_newFrame _ _ _)⟩

/-- An assignment in the frame of a pass changes one of the values. -/
theorem Captured.define (h : Captured w f xs n g vs) (hv : vs[i]? = some v) (t : Value) :
    Captured (w.define (g + i) "x" t) f xs n g (vs.set i t) := by
  obtain ⟨slots, hf, hslots⟩ := h.globals
  have hne : g + i ≠ f := Nat.ne_of_gt (Nat.lt_add_right i h.base)
  refine ⟨⟨slots, (World.frames_define_other hne _ _ _).trans hf, ?_⟩, h.base, ?_⟩
  · rwa [List.length_set]
  · intro j u hu
    by_cases hj : i = j
    · subst hj
      rw [List.getElem?_set_self (List.getElem?_eq_some_iff.1 hv).1] at hu
      obtain rfl := Option.some.inj hu
      rw [World.frames_define_self (h.pass hv)]
      simp [Slots.insert]
    · rw [List.getElem?_set_ne hj] at hu
      have hne : g + i ≠ g + j := fun heq => hj (Nat.add_left_cancel heq)
      exact (World.frames_define_other hne _ _ _).trans (h.pass hu)

theorem Captured.applies_setter (h : Captured w f xs n g vs) (hv : vs[i]? = some v)
    (ht : ¬t.IsSignal) (hd : ∀ n ∈ limit, w.depth < n) (m : Nat) :
    ∃ u, Applies limit (.function ⟨m, ["v"], setterBody, g + i⟩) [t] w t u ∧
      Captured u f xs n g (vs.set i t) := by
  have harg : (w.enter ⟨m, ["v"], setterBody, g + i⟩ [t]).store.get? w.size "v" = some t :=
    (h.chain hv).get?_newFrame [("v", t)] "v"
  have hx : (w.enter ⟨m, ["v"], setterBody, g + i⟩ [t]).store.resolve? w.size "x" = some (g + i) :=
    Option.map_eq_some_iff.2 ⟨_, h.find?_call hv [("v", t)] (by simp [Slots.get?]), rfl⟩
  have happlies := applies_function ⟨m, ["v"], setterBody, g + i⟩ (Nat.le_refl _) hd
    (evaluates_assign (evaluates_ident harg ht) hx).block
  have hcall : Captured (w.enter ⟨m, ["v"], setterBody, g + i⟩ [t]) f xs n g vs :=
    h.keeps (Store.keeps_newFrame _ _ _)
  exact ⟨_, happlies, (hcall.define hv t).keeps (.refl _)⟩

/-- One call: it returns, and a getter returns the value of its variable. -/
theorem Captured.access (h : Captured w f xs n g vs) (hvs : ∀ v ∈ vs, ¬v.IsSignal)
    (hd : ∀ n ∈ limit, w.depth < n) {a : Access} (ha : a.Fits vs.length) :
    ∃ r u, Applies limit (a.function n g) a.arguments w r u ∧
      Captured u f xs n g (a.update vs) ∧ ∀ i, a = .get i → vs[i]? = some r := by
  cases a with
  | get i =>
    have hi : i < vs.length := ha.1
    have hv : vs[i]? = some vs[i] := List.getElem?_eq_getElem hi
    obtain ⟨u, happlies, hu⟩ := h.applies_getter hv (hvs _ (List.getElem_mem hi)) hd (n + 2 * i)
    refine ⟨_, u, happlies, hu, fun j hj => ?_⟩
    cases hj
    exact hv
  | set i t =>
    have hi : i < vs.length := ha.1
    have hv : vs[i]? = some vs[i] := List.getElem?_eq_getElem hi
    obtain ⟨u, happlies, hu⟩ := h.applies_setter hv ha.2.2 hd (n + 2 * i + 1)
    exact ⟨_, u, happlies, hu, fun j hj => nomatch hj⟩

/-- The value of variable `i` after a call is the one that the call passes to its setter, if it
does, and else the one before. -/
theorem Access.getElem?_update {a : Access} (ha : a.Fits vs.length) (i : Nat) :
    (a.update vs)[i]? = (a.passed? i).or vs[i]? := by
  cases a with
  | get j => rfl
  | set j t =>
    by_cases hj : j = i
    · subst hj
      simp [update, passed?, ha.1]
    · simp [update, passed?, hj]

/-- No signal gets into the variables. -/
theorem Access.not_isSignal_update {a : Access} (ha : a.Fits n) (hvs : ∀ v ∈ vs, ¬v.IsSignal) :
    ∀ v ∈ a.update vs, ¬v.IsSignal := by
  cases a with
  | get i => exact hvs
  | set i t =>
    intro v hv
    rcases List.mem_or_eq_of_mem_set hv with hv | rfl
    · exact hvs v hv
    · exact ha.2.2

/-- The calls return one after another, each getter with the value that was last passed to the
setter of its variable. -/
theorem Captured.calls (h : Captured w f xs n g vs) (hvs : ∀ v ∈ vs, ¬v.IsSignal)
    (hd : ∀ n ∈ limit, w.depth < n) {calls : List Access}
    (hcalls : ∀ a ∈ calls, a.Fits vs.length) :
    ∃ rs u vs', Calls limit f w calls rs u ∧ Captured u f xs n g vs' ∧
      ∀ k i, calls[k]? = some (.get i) →
        rs[k]? = ((calls.take k).reverse.findSome? (·.passed? i)).or vs[i]? := by
  induction calls generalizing w vs with
  | nil =>
    refine ⟨[], w, vs, .nil, h, fun k i hk => ?_⟩
    simp at hk
  | cons a calls ih =>
    obtain ⟨ha, hcalls⟩ := List.forall_mem_cons.1 hcalls
    obtain ⟨r, t, happlies, ht, hr⟩ := h.access hvs hd ha
    have hlength : (a.update vs).length = vs.length := by cases a <;> simp [Access.update]
    obtain ⟨rs, u, vs', hrest, hu, hget⟩ := ih ht (Access.not_isSignal_update ha hvs)
      (happlies.depth_eq ▸ hd) (hlength ▸ hcalls)
    refine ⟨r :: rs, u, vs', .cons (h.evaluates_callee ha) happlies hrest, hu, fun k i hk => ?_⟩
    cases k with
    | zero =>
      obtain rfl := Option.some.inj hk
      simp [hr i rfl]
    | succ k =>
      have hk := hget k i hk
      rw [Access.getElem?_update ha] at hk
      rw [List.getElem?_cons_succ, List.take_succ_cons, List.reverse_cons, List.findSome?_append,
        List.findSome?_singleton, hk, Option.or_assoc]

/-- The program makes the functions of all items, in any global frame where `push` is the built-in
function. -/
theorem ends_accessorProgram (hf : w.store.frames[f]? = some ⟨none, slots⟩)
    (hxs : slots.get? "xs" = some (.array xs)) (hpush : slots.get? "push" = none) :
    ∃ r u n g, Ends limit (load accessorProgram f w) (.ok (some r)) u ∧ ¬r.IsSignal ∧
      Captured u f xs n g xs := by
  have hdefine : Evaluates limit (.array []) f w (.array []) w := evaluates_array .nil
  have hf' := World.frames_define_self hf "fs" (.array [])
  have hempty : Captured (w.define f "fs" (.array [])) f xs w.functions w.size [] := by
    refine ⟨⟨_, hf', ?_, ?_, ?_⟩, (Array.getElem?_eq_some_iff.1 hf).1, fun hv => nomatch hv⟩
    · rw [Slots.get?_insert_other _ _ (by decide), hxs]
    · rw [Slots.get?_insert_other _ _ (by decide), hpush]
    · exact Slots.get?_insert_self _ _ _
  have hiterable : (w.define f "fs" (.array [])).store.get? f "xs" = some (.array xs) := by
    rw [Store.get?_root hf' rfl, Slots.get?_insert_other _ _ (by decide), hxs]
  obtain ⟨r, u, hloop, hr, hu⟩ := hempty.loop_ends (World.size_define _ _ _ _) rfl limit xs
    (r := .null) id
  have hfor := evaluates_forIn (evaluates_ident hiterable id) hloop
  exact ⟨r, u, _, _, hdefine.ends_define_iff.2 hfor.block, hr, hu⟩

end

/-- Each pass gives its functions a variable of their own. The program makes as many pairs of
functions as there are items, and however these are called then, all calls return, and a getter
returns the value that was last passed to the setter of its pass, or its item of the array if there
was none. The array itself stays as it was. -/
theorem passes_capture {s : Session} {slots : Slots} {xs : List Value}
    (hglobals : s.world.store.frames[s.globals]? = some ⟨none, slots⟩)
    (hxs : slots.get? "xs" = some (.array xs)) (hpush : slots.get? "push" = none)
    (hitems : ∀ v ∈ xs, ¬v.IsSignal) (hdepth : s.world.depth < callLimit) :
    ∃ n v t fs, s.run n accessorSource = some (.value v, t) ∧ ¬v.IsSignal ∧
      t.globals = s.globals ∧ t.get? "fs" = some (.array fs) ∧ fs.length = xs.length ∧
      ∀ calls : List Access, (∀ a ∈ calls, a.Fits xs.length) →
        ∃ rs u, Calls (some callLimit) t.globals t.world calls rs u ∧
          (∀ k i, calls[k]? = some (.get i) →
            rs[k]? = ((calls.take k).reverse.findSome? (·.passed? i)).or xs[i]?) ∧
          u.store.get? t.globals "xs" = some (.array xs) := by
  obtain ⟨v, u, n, g, hends, hv, hu⟩ := ends_accessorProgram hglobals hxs hpush
  obtain ⟨k, hrun⟩ := Session.run_of_ends parse_accessorSource.1 parse_accessorSource.2 hends
  obtain ⟨slots, hf, -, -, hfs⟩ := hu.globals
  have hlt : ∀ n ∈ some callLimit, u.depth < n := by
    intro n hn
    cases hn
    rwa [hends.depth_eq]
  refine ⟨k, v, _, _, hrun, hv, rfl, (Store.get?_root hf rfl _).trans hfs, by simp [accessors],
    fun calls hcalls => ?_⟩
  obtain ⟨rs, t, vs, hcalls, ht, hget⟩ := hu.calls hitems hlt hcalls
  obtain ⟨slots, hf, hxs, -⟩ := ht.globals
  exact ⟨rs, t, hcalls, hget, (Store.get?_root hf rfl _).trans hxs⟩

theorem passes_capture_two :
    let s := (Session.fresh fun _ => 0).define "xs" (.array [.integer 1, .string "a"])
    ∃ n v t rs u, s.run n accessorSource = some (.value v, t) ∧
      Calls (some callLimit) t.globals t.world [.set 0 (.boolean true), .get 1, .get 0] rs u ∧
      rs[1]? = some (.string "a") ∧ rs[2]? = some (.boolean true) := by
  intro s
  obtain ⟨n, v, t, fs, hrun, -, -, -, -, hcalls⟩ := passes_capture (s := s) rfl rfl rfl
    (by simp [Value.IsSignal]) (by decide)
  obtain ⟨rs, u, hall, hget, -⟩ := hcalls [.set 0 (.boolean true), .get 1, .get 0]
    (by simp [Access.Fits, Value.IsSignal])
  exact ⟨n, v, t, rs, u, hrun, hall, hget 1 1 rfl, hget 2 0 rfl⟩

end MonkeyLang
