/-
How expressions come to their values, part by part. Each rule puts the run of an
expression, a call or a block together from the runs of its parts, with the
worlds in between. An error in a part is the error of the whole.
-/
import MonkeyLang.Proofs.Depth
import MonkeyLang.Proofs.Sequence

namespace MonkeyLang

namespace World

/-- The new frame for a call of the function, one call deeper. -/
def enter (w : World) (c : Closure) (arguments : List Value) : World :=
  { (w.newFrame (some c.frame) (.ofList (c.parameters.zip arguments))).2 with
    depth := w.depth + 1 }

/-- A call is over. -/
def leave (w : World) : World := { w with depth := w.depth - 1 }

end World

namespace Machine

/-- The expression comes to the value and leaves the world `u`. -/
def Evaluates (limit : Option Nat) (e : Expr) (f : FrameId) (w : World) (v : Value) (u : World) :
    Prop :=
  Ends limit ⟨.expr e f, [], w⟩ (.ok (some v)) u

/-- The expressions come to the values, one after another. -/
inductive EvaluatesAll (limit : Option Nat) (f : FrameId) :
    List Expr → World → List Value → World → Prop
  | nil {w : World} : EvaluatesAll limit f [] w [] w
  | cons {e : Expr} {es : List Expr} {v : Value} {vs : List Value} {w u t : World} :
      Evaluates limit e f w v u → EvaluatesAll limit f es u vs t →
      EvaluatesAll limit f (e :: es) w (v :: vs) t

/-- The keys and the values of the entries come to these, in the order of the source. -/
inductive EvaluatesEntries (limit : Option Nat) (f : FrameId) :
    List (Expr × Expr) → World → List (Key × Value) → World → Prop
  | nil {w : World} : EvaluatesEntries limit f [] w [] w
  | cons {key value : Expr} {es : List (Expr × Expr)} {k : Key} {v : Value}
      {kvs : List (Key × Value)} {w u t x : World} : Evaluates limit key f w k.toValue u →
      Evaluates limit value f u v t → EvaluatesEntries limit f es t kvs x →
      EvaluatesEntries limit f ((key, value) :: es) w ((k, v) :: kvs) x

/-- The value is called with the arguments and gives `v`. -/
def Applies (limit : Option Nat) (callee : Value) (arguments : List Value) (w : World) (v : Value)
    (u : World) : Prop :=
  Ends limit ⟨.apply callee arguments, [], w⟩ (.ok (some v)) u

/-- The machine comes to this error. -/
def Fails (limit : Option Nat) (m : Machine) (e : Fault) : Prop :=
  ∃ u, Ends limit m (.error (.fault e)) u

variable {limit : Option Nat} {m m' : Machine} {c : Control} {k : List Pending} {o : Outcome}
  {e l r callee collection key : Expr} {es es' : List Expr} {f : FrameId} {w u t : World}
  {a v : Value} {vs before : List Value} {x : String} {b b' : Block} {res : Option Value}
  {fault : Fault}

theorem Ends.depth_eq (h : Ends limit ⟨c, [], w⟩ o u) : u.depth = w.depth := by
  obtain ⟨n, h⟩ := h
  exact depth_of_run h

/-- No expression has a signal as its value. -/
theorem Evaluates.not_isSignal (h : Evaluates limit e f w v u) : ¬v.IsSignal := by
  obtain ⟨n, h⟩ := h
  have hs : Settled ⟨.expr e f, [], w⟩ := ⟨trivial, List.forall_mem_nil _⟩
  have ha := (hs.after limit n).1
  rwa [run_eq_some.1 h] at ha

/-- The steps of an expression are the same whatever comes after them. -/
theorem Evaluates.exists_after (h : Evaluates limit e f w v u) :
    ∃ n, ∀ k, after limit n ⟨.expr e f, k, w⟩ = ⟨.done (some v), k, u⟩ := by
  obtain ⟨n, h⟩ := h
  obtain ⟨i, -, hi⟩ := exists_after_onto h
  exact ⟨i, hi⟩

theorem ends_done (h : Leads limit m ⟨.done res, [], u⟩) : Ends limit m (.ok res) u :=
  h.ends (ends_of_outcome (o := .ok res))

/-! ## Errors -/

/-- Nothing that was to be done afterwards stops an error. -/
theorem Fails.onto (h : Fails limit ⟨c, [], w⟩ fault) (k : List Pending) :
    Fails limit ⟨c, k, w⟩ fault := by
  obtain ⟨u, h⟩ := h
  obtain ⟨d, hrun⟩ := @run_fault limit fault k u
  exact ⟨_, (h.leads k).ends ⟨_, hrun⟩⟩

theorem Leads.fails (h : Leads limit m m') (h' : Fails limit m' fault) : Fails limit m fault := by
  obtain ⟨u, h'⟩ := h'
  exact ⟨u, h.ends h'⟩

/-! ## Expressions -/

theorem evaluates_ident (hx : w.store.get? f x = some v) (hv : ¬v.IsSignal) :
    Evaluates limit (.ident x) f w v w := by
  refine ends_done ⟨1, ?_⟩
  simp only [after, step, evaluate, hx, settle_of_not_isSignal hv]

theorem evaluates_builtin {b : Builtin} (hx : w.store.get? f b.name = none) :
    Evaluates limit (.ident b.name) f w (.builtin b) w := by
  refine ends_done ⟨1, ?_⟩
  simp only [after, step, evaluate, hx, Builtin.ofName?_name]

theorem evaluates_integer (n : Int64) : Evaluates limit (.integer n) f w (.integer n) w :=
  ends_done ⟨1, rfl⟩

theorem evaluates_function (parameters : List String) (body : Block) :
    Evaluates limit (.function parameters body) f w (w.newFunction parameters body f).1
      (w.newFunction parameters body f).2 :=
  ends_done ⟨1, rfl⟩

theorem evaluates_unary {op : UnaryOp} (he : Evaluates limit e f w a u) (hop : op.apply a = .ok v)
    (hv : ¬v.IsSignal) : Evaluates limit (.unary op e) f w v u := by
  have hend : Leads limit ⟨.done (some a), [.unary op], u⟩ ⟨.done (some v), [], u⟩ := by
    refine ⟨1, ?_⟩
    simp only [after, step, resume, Option.getD_some, hop, settleResult, settle_of_not_isSignal hv]
  exact ends_done ((he.leads [.unary op]).trans hend).of_step

theorem evaluates_binary {op : BinaryOp} {y : Value} (hl : Evaluates limit l f w a u)
    (hr : Evaluates limit r f u y t) (hop : op.apply a y = .ok v) (hv : ¬v.IsSignal) :
    Evaluates limit (.binary l op r) f w v t := by
  have hleft := hl.leads [.binaryLeft op r f]
  have hright := hr.leads [.binaryRight a op]
  have hend : Leads limit ⟨.done (some y), [.binaryRight a op], t⟩ ⟨.done (some v), [], t⟩ := by
    refine ⟨1, ?_⟩
    simp only [after, step, resume, Option.getD_some, hop, settleResult, settle_of_not_isSignal hv]
  exact ends_done (hleft.trans (hright.trans hend).of_step).of_step

theorem evaluates_index (hc : Evaluates limit collection f w a u)
    (hk : Evaluates limit key f u v t) {y : Value} (hm : a.member v = .ok y) (hy : ¬y.IsSignal) :
    Evaluates limit (.index collection key) f w y t := by
  have hcollection := hc.leads [.collection key f]
  have hkey := hk.leads [.key a]
  have hend : Leads limit ⟨.done (some v), [.key a], t⟩ ⟨.done (some y), [], t⟩ := by
    refine ⟨1, ?_⟩
    simp only [after, step, resume, Option.getD_some, hm, settleResult, settle_of_not_isSignal hy]
  exact ends_done (hcollection.trans (hkey.trans hend).of_step).of_step

/-- The variable is changed where the name belongs. -/
theorem evaluates_assign {g : FrameId} (he : Evaluates limit e f w v u)
    (hx : u.store.resolve? f x = some g) :
    Evaluates limit (.assign x e) f w v (u.define g x v) := by
  have hvalue := he.leads [.assign x f]
  have hend : Leads limit ⟨.done (some v), [.assign x f], u⟩
      ⟨.done (some v), [], u.define g x v⟩ := by
    refine ⟨1, ?_⟩
    simp only [after, step, resume, Option.getD_some, World.assign, Store.assign, hx, if_true,
      World.define]
  exact ends_done (hvalue.trans hend).of_step

/-- Some of the items of an array, with others before and after them. -/
theorem EvaluatesAll.leads_items (h : EvaluatesAll limit f es w vs u) :
    Leads limit (items before (es ++ es') f k w) (items (vs.reverse ++ before) es' f k u) := by
  induction h generalizing before with
  | nil => exact .refl _
  | @cons e es v vs w u t he _ ih =>
    have hnext := @ih (v :: before)
    rw [List.reverse_cons, List.append_assoc, List.singleton_append]
    exact (he.leads (.item before (es ++ es') f :: k)).trans hnext.of_step

theorem evaluates_array (h : EvaluatesAll limit f es w vs u) :
    Evaluates limit (.array es) f w (.array vs) u := by
  have hitems : Leads limit (items [] (es ++ []) f [] w) (items (vs.reverse ++ []) [] f [] u) :=
    h.leads_items
  have hend : items (vs.reverse ++ []) [] f [] u = ⟨.done (some (.array vs)), [], u⟩ := by
    simp [items]
  rw [hend, List.append_nil] at hitems
  exact ends_done hitems.of_step

/-- The first entries of a hash go into it one after another. Their steps are the same whatever
entries come after them. -/
theorem EvaluatesEntries.exists_after {es : List (Expr × Expr)} {kvs : List (Key × Value)}
    (h : EvaluatesEntries limit f es w kvs u) (m : Entries Value) :
    ∃ n, ∀ es' k, after limit n (entries m (es ++ es') f k w) =
      entries (kvs.foldl (fun m e => m.insert e.1 e.2) m) es' f k u := by
  induction h generalizing m with
  | nil => exact ⟨0, fun _ _ => rfl⟩
  | @cons key value es k v kvs w u t x hkey hvalue _ ih =>
    obtain ⟨i, hi⟩ := hkey.exists_after
    obtain ⟨j, hj⟩ := hvalue.exists_after
    obtain ⟨n, hn⟩ := ih (m.insert k v)
    refine ⟨i + (1 + (j + (1 + n))), fun es' p => ?_⟩
    have hfiled : after limit 1 ⟨.done (some k.toValue), .entryKey m value (es ++ es') f :: p, u⟩ =
        ⟨.expr value f, .entryValue m k (es ++ es') f :: p, u⟩ := by
      simp only [after, step, resume, Option.getD_some, Key.key?_toValue]
    have hinserted : after limit 1 ⟨.done (some v), .entryValue m k (es ++ es') f :: p, t⟩ =
        entries (m.insert k v) (es ++ es') f p t := rfl
    rw [List.cons_append, entries, after_add, hi, after_add, hfiled, after_add, hj, after_add,
      hinserted, hn, List.foldl_cons]

theorem evaluates_hash {es : List (Expr × Expr)} {kvs : List (Key × Value)}
    (h : EvaluatesEntries limit f es w kvs u) :
    Evaluates limit (.hash es) f w (.hash (Entries.ofList kvs)) u := by
  obtain ⟨n, hn⟩ := h.exists_after []
  have hentries : Leads limit (entries [] es f [] w)
      ⟨.done (some (.hash (Entries.ofList kvs))), [], u⟩ := by
    refine ⟨n, ?_⟩
    rw [← List.append_nil es]
    exact hn [] []
  exact ends_done hentries.of_step

/-- Some of the arguments of a call. -/
theorem EvaluatesAll.leads_arguments (h : EvaluatesAll limit f es w vs u) :
    Leads limit (arguments a before (es ++ es') f k w)
      (arguments a (vs.reverse ++ before) es' f k u) := by
  induction h generalizing before with
  | nil => exact .refl _
  | @cons e es v vs w u t he _ ih =>
    have hnext := @ih (v :: before)
    rw [List.reverse_cons, List.append_assoc, List.singleton_append]
    exact (he.leads (.argument a before (es ++ es') f :: k)).trans hnext.of_step

/-- A call after the callee and some of its arguments. -/
theorem leads_call (hc : Evaluates limit callee f w a u) (h : EvaluatesAll limit f es u vs t) :
    Leads limit ⟨.expr (.call callee (es ++ es')) f, k, w⟩
      (arguments a vs.reverse es' f k t) := by
  have hcallee := hc.leads (.callee (es ++ es') f :: k)
  have harguments : Leads limit (arguments a [] (es ++ es') f k u)
      (arguments a (vs.reverse ++ []) es' f k t) := h.leads_arguments
  rw [List.append_nil] at harguments
  exact (hcallee.trans harguments.of_step).of_step

/-- The call of a value, once all is evaluated. -/
theorem leads_apply (hc : Evaluates limit callee f w a u) (h : EvaluatesAll limit f es u vs t) :
    Leads limit ⟨.expr (.call callee es) f, k, w⟩ ⟨.apply a vs, k, t⟩ := by
  have hcall : Leads limit ⟨.expr (.call callee (es ++ [])) f, k, w⟩
      (arguments a vs.reverse [] f k t) := leads_call hc h
  rwa [List.append_nil, arguments, List.reverse_reverse] at hcall

theorem evaluates_call (hc : Evaluates limit callee f w a u) (h : EvaluatesAll limit f es u vs t)
    {w' : World} (ha : Applies limit a vs t v w') : Evaluates limit (.call callee es) f w v w' :=
  (leads_apply hc h).ends ha

/-- The condition leads to one of the branches. -/
theorem leads_ifElse (hc : Evaluates limit e f w v u) :
    Leads limit ⟨.expr (.ifElse e b (some b')) f, k, w⟩
      ⟨.block (if v.isTruthy then b else b') f, .chosen :: k, u⟩ := by
  have hchoose : Leads limit ⟨.done (some v), .choose b (some b') f :: k, u⟩
      ⟨.block (if v.isTruthy then b else b') f, .chosen :: k, u⟩ := by
    refine ⟨1, ?_⟩
    simp only [after, step, resume, Option.getD_some]
    split <;> rfl
  exact ((hc.leads (.choose b (some b') f :: k)).trans hchoose).of_step

/-- The chosen branch gives the value, null if there is none in it. -/
theorem evaluates_ifElse (hc : Evaluates limit e f w v u)
    (hb : Ends limit ⟨.block (if v.isTruthy then b else b') f, [], u⟩ (.ok res) t) :
    Evaluates limit (.ifElse e b (some b')) f w (res.getD .null) t := by
  have hend : Leads limit ⟨.done res, [.chosen], t⟩ ⟨.done (some (res.getD .null)), [], t⟩ :=
    ⟨1, rfl⟩
  exact ends_done ((leads_ifElse hc).trans ((hb.leads [.chosen]).trans hend))

/-! ## Calls -/

theorem applies_builtin {b : Builtin} (hb : b.call vs w = (.ok v, u)) (hv : ¬v.IsSignal) :
    Applies limit (.builtin b) vs w v u := by
  refine ends_done ⟨1, ?_⟩
  simp only [after, step, call, hb, settleResult, settle_of_not_isSignal hv]

/-- A call within the limit leads to the body, in a frame of its own. -/
theorem leads_body (c : Closure) (hargs : c.parameters.length ≤ vs.length)
    (hd : ∀ n ∈ limit, w.depth < n) :
    Leads limit ⟨.apply (.function c) vs, [], w⟩
      ⟨.block c.body w.store.frames.size, [.call], w.enter c vs⟩ := by
  have hfilter : limit.filter (· ≤ w.depth) = none := by
    rw [Option.filter_eq_none_iff]
    intro n hn
    simpa using hd n hn
  refine ⟨1, ?_⟩
  simp only [after, step, call, Nat.not_lt.2 hargs, if_false, hfilter]
  rfl

theorem applies_function (c : Closure) (hargs : c.parameters.length ≤ vs.length)
    (hd : ∀ n ∈ limit, w.depth < n)
    (hb : Ends limit ⟨.block c.body w.store.frames.size, [], w.enter c vs⟩ (.ok res) u) :
    Applies limit (.function c) vs w (res.getD .null) u.leave := by
  have hend : Leads limit ⟨.done res, [.call], u⟩ ⟨.done (some (res.getD .null)), [], u.leave⟩ :=
    ⟨1, rfl⟩
  exact ends_done ((leads_body c hargs hd).trans ((hb.leads [.call]).trans hend))

/-- A call beyond the limit. -/
theorem fails_tooDeep {c : Closure} {n : Nat} (hargs : c.parameters.length ≤ vs.length)
    (hd : n ≤ w.depth) : Fails (some n) ⟨.apply (.function c) vs, [], w⟩ (.tooDeep n) := by
  have hfilter : (some n).filter (· ≤ w.depth) = some n := by simp [hd]
  have hraise : Leads (some n) ⟨.apply (.function c) vs, [], w⟩
      ⟨.raised (.fault (.tooDeep n)), [], w⟩ := by
    refine ⟨1, ?_⟩
    simp only [after, step, call, Nat.not_lt.2 hargs, if_false, hfilter]
    rfl
  exact ⟨w, hraise.ends (ends_of_outcome (o := .error (.fault (.tooDeep n))))⟩

/-! ## Blocks -/

/-- The last expression of a block gives its value. -/
theorem Evaluates.block (h : Evaluates limit e f w v u) :
    Ends limit ⟨.block [.expr e] f, [], w⟩ (.ok (some v)) u := by
  have hblock : Leads limit ⟨.block [.expr e] f, [], w⟩ ⟨.expr e f, [.more [] f], w⟩ := ⟨2, rfl⟩
  have hend : Leads limit ⟨.done (some v), [.more [] f], u⟩ ⟨.done (some v), [], u⟩ := ⟨1, rfl⟩
  exact ends_done (hblock.trans ((h.leads [.more [] f]).trans hend))

theorem Fails.block (h : Fails limit ⟨.expr e f, [], w⟩ fault) :
    Fails limit ⟨.block (.expr e :: b) f, [], w⟩ fault := by
  have hblock : Leads limit ⟨.block (.expr e :: b) f, [], w⟩ ⟨.expr e f, [.more b f], w⟩ := ⟨2, rfl⟩
  exact hblock.fails (h.onto _)

/-- A definition, and then the rest of the block. -/
theorem Evaluates.leads_define (h : Evaluates limit e f w v u) :
    Leads limit ⟨.block (.define x e :: b) f, k, w⟩
      ⟨.done none, .more b f :: k, u.define f x v⟩ := by
  have hblock : Leads limit ⟨.block (.define x e :: b) f, k, w⟩
      ⟨.expr e f, .define x f :: .more b f :: k, w⟩ := ⟨2, rfl⟩
  have hend : Leads limit ⟨.done (some v), .define x f :: .more b f :: k, u⟩
      ⟨.done none, .more b f :: k, u.define f x v⟩ := ⟨1, rfl⟩
  exact hblock.trans ((h.leads _).trans hend)

/-- What comes after a definition runs as if the definition had come before the block. -/
theorem Evaluates.ends_define_iff (h : Evaluates limit e f w v u) :
    Ends limit ⟨.block (.define x e :: b) f, [], w⟩ o t ↔
      Ends limit ⟨.block b f, [], u.define f x v⟩ o t := by
  have hlead : Leads limit ⟨.block (.define x e :: b) f, [], w⟩
      (rest b (.ok none) f (u.define f x v)) := h.leads_define
  obtain ⟨n, hn⟩ := hlead
  rw [← ends_after_iff n, hn]
  exact ends_load.symm

/-! ## Loops -/

/-- A pass, and then the passes for the items that are left. -/
theorem ends_forPass_cons (hb : Ends limit ⟨.block b w.store.frames.size, [],
      (w.newFrame (some f) [(x, v)]).2⟩ (.ok res) u)
    (h : Ends limit (forPass x vs b f (res.getD a) [] u) o t) :
    Ends limit (forPass x (v :: vs) b f a [] w) o t := by
  have hpass : Leads limit ⟨.done res, [.forPass x vs b f a], u⟩
      (forPass x vs b f (res.getD a) [] u) := ⟨1, rfl⟩
  exact ((hb.leads [.forPass x vs b f a]).trans hpass).ends h

theorem evaluates_forIn (he : Evaluates limit e f w (.array vs) u)
    (h : Ends limit (forPass x vs b f .null [] u) (.ok (some v)) t) :
    Evaluates limit (.forIn x e b) f w v t := by
  have hiterable := he.leads [.iterate x b f]
  have hpasses : Leads limit ⟨.done (some (.array vs)), [.iterate x b f], u⟩
      (forPass x vs b f .null [] u) := ⟨1, rfl⟩
  exact ((hiterable.trans hpasses).of_step).ends h

end Machine

end MonkeyLang
