/-
How deep calls nest. An evaluation takes a certain number of calls within each
other: where the limit has room for them it comes to its value, and where it has
not it ends with the error of being too deep. Parts that come one after another
take the larger of their numbers, and a call takes one more than its body.
-/
import MonkeyLang.Proofs.Chains
import MonkeyLang.Proofs.Evaluation

namespace MonkeyLang.Machine

/-- At depth `d`, the machine takes `n` calls within each other to come to this result. The frames
of `s` are as they were then. -/
structure Takes (limit : Nat) (s : Store) (d n : Nat) (m : Machine) (r : Option Value) : Prop where
  ends : d + n ≤ limit → ∃ u, Ends (some limit) m (.ok r) u ∧ s.Keeps u.store
  deep : d ≤ limit → limit < d + n → Fails (some limit) m (.tooDeep limit)

variable {limit d n n' : Nat} {s s' : Store} {m m' : Machine} {r r' : Option Value} {c : Control}
  {k : List Pending} {w u : World} {e callee : Expr} {es : List Expr} {f : FrameId}
  {a v : Value} {vs : List Value} {b b' : Block} {x : String}

theorem Takes.of_leads (h : Takes limit s d n m' r) (hm : Leads (some limit) m m') :
    Takes limit s d n m r := by
  constructor
  · intro hn
    obtain ⟨u, hu, hs⟩ := h.ends hn
    exact ⟨u, hm.ends hu, hs⟩
  · intro hd hn
    exact hm.fails (h.deep hd hn)

/-- What comes to its end without calls of functions, at any depth. -/
theorem takes_zero (h : Ends (some limit) m (.ok r) u) (hs : s.Keeps u.store) :
    Takes limit s d 0 m r := by
  constructor
  · intro _
    exact ⟨u, h, hs⟩
  · intro hd hn
    omega

theorem Takes.keeps (h : Takes limit s' d n m r) (hs : s.Keeps s') : Takes limit s d n m r := by
  refine ⟨fun hn => ?_, h.deep⟩
  obtain ⟨u, hu, hs'⟩ := h.ends hn
  exact ⟨u, hu, hs.trans hs'⟩

/-- A part, and then what is to be done afterwards. -/
theorem Takes.onto (h : Takes limit w.store w.depth n ⟨c, [], w⟩ r)
    (hk : ∀ u : World, w.store.Keeps u.store → u.depth = w.depth →
      Takes limit s w.depth n' ⟨.done r, k, u⟩ r') :
    Takes limit s w.depth (max n n') ⟨c, k, w⟩ r' := by
  constructor
  · intro hn
    obtain ⟨u, hu, hs⟩ := h.ends (by omega)
    obtain ⟨t, ht, hs'⟩ := (hk u hs hu.depth_eq).ends (by omega)
    exact ⟨t, (hu.leads k).ends ht, hs'⟩
  · intro hd hn
    by_cases hfirst : limit < w.depth + n
    · exact (h.deep hd hfirst).onto k
    · obtain ⟨u, hu, hs⟩ := h.ends (by omega)
      exact (hu.leads k).fails ((hk u hs hu.depth_eq).deep hd (by omega))

/-- A call takes one more than the body. -/
theorem takes_apply (c : Closure) (hargs : c.parameters.length ≤ vs.length)
    (h : Takes limit s (w.depth + 1) n ⟨.block c.body w.store.frames.size, [], w.enter c vs⟩ r) :
    Takes limit s w.depth (n + 1) ⟨.apply (.function c) vs, [], w⟩ (some (r.getD .null)) := by
  have hroom : w.depth < limit → ∀ l ∈ some limit, w.depth < l := by
    intro hd l hl
    cases hl
    exact hd
  constructor
  · intro hn
    obtain ⟨u, hu, hs⟩ := h.ends (by omega)
    exact ⟨u.leave, applies_function c hargs (hroom (by omega)) hu, hs⟩
  · intro hd hn
    by_cases hfull : limit ≤ w.depth
    · exact fails_tooDeep hargs hfull
    · have hbody := (h.deep (by omega) (by omega)).onto [.call]
      exact (leads_body c hargs (hroom (by omega))).fails hbody

theorem Takes.block (h : Takes limit s d n ⟨.expr e f, [], w⟩ (some v)) :
    Takes limit s d n ⟨.block [.expr e] f, [], w⟩ (some v) := by
  constructor
  · intro hn
    obtain ⟨u, hu, hs⟩ := h.ends hn
    exact ⟨u, Evaluates.block hu, hs⟩
  · intro hd hn
    exact (h.deep hd hn).block

/-- A definition that takes no calls, and then the rest of the block. -/
theorem Takes.after_define (h : Takes limit s d n ⟨.block b f, [], u.define f x v⟩ r)
    (he : Evaluates (some limit) e f w v u) :
    Takes limit s d n ⟨.block (.define x e :: b) f, [], w⟩ r := by
  constructor
  · intro hn
    obtain ⟨t, ht, hs⟩ := h.ends hn
    exact ⟨t, he.ends_define_iff.2 ht, hs⟩
  · intro hd hn
    obtain ⟨t, ht⟩ := h.deep hd hn
    exact ⟨t, he.ends_define_iff.2 ht⟩

/-- A definition, and then the rest of the block. -/
theorem Takes.define (h : Takes limit w.store w.depth n ⟨.expr e f, [], w⟩ (some v))
    (hb : ∀ u : World, w.store.Keeps u.store → u.depth = w.depth →
      Takes limit s w.depth n' ⟨.block b f, [], u.define f x v⟩ r) :
    Takes limit s w.depth (max n n') ⟨.block (.define x e :: b) f, [], w⟩ r := by
  have hblock : Leads (some limit) ⟨.block (.define x e :: b) f, [], w⟩
      ⟨.expr e f, [.define x f, .more b f], w⟩ := ⟨2, rfl⟩
  refine (h.onto fun u hs hd => ?_).of_leads hblock
  -- An empty block goes on as what is left of one.
  have hrest {o : Outcome} {t : World} : Ends (some limit) ⟨.block b f, [], u.define f x v⟩ o t →
      Ends (some limit) ⟨.done (some v), [.define x f, .more b f], u⟩ o t := by
    intro ht
    exact ends_step_iff.1 (ends_load.1 ht)
  have hb := hb u hs hd
  constructor
  · intro hn
    obtain ⟨t, ht, hs'⟩ := hb.ends hn
    exact ⟨t, hrest ht, hs'⟩
  · intro hd hn
    obtain ⟨t, ht⟩ := hb.deep hd hn
    exact ⟨t, hrest ht⟩

/-- The chosen branch takes what the `if` takes. -/
theorem Takes.ifElse (he : Evaluates (some limit) e f w a u)
    (h : Takes limit s d n ⟨.block (if a.isTruthy then b else b') f, [], u⟩ (some v)) :
    Takes limit s d n ⟨.expr (.ifElse e b (some b')) f, [], w⟩ (some v) := by
  constructor
  · intro hn
    obtain ⟨t, ht, hs⟩ := h.ends hn
    exact ⟨t, evaluates_ifElse he ht, hs⟩
  · intro hd hn
    exact (leads_ifElse he).fails ((h.deep hd hn).onto _)

/-- A call whose arguments take no calls. -/
theorem Takes.call (hc : Evaluates (some limit) callee f w a w)
    (hes : EvaluatesAll (some limit) f es w vs u)
    (h : Takes limit s d n ⟨.apply a vs, [], u⟩ r) :
    Takes limit s d n ⟨.expr (.call callee es) f, [], w⟩ r :=
  h.of_leads (leads_apply hc hes)

/-- A call whose last argument takes calls. -/
theorem Takes.call_last (hc : Evaluates (some limit) callee f w a w)
    (hes : EvaluatesAll (some limit) f es w vs w)
    (he : Takes limit w.store w.depth n ⟨.expr e f, [], w⟩ (some v))
    (h : ∀ u : World, w.store.Keeps u.store → u.depth = w.depth →
      Takes limit s w.depth n' ⟨.apply a (vs ++ [v]), [], u⟩ r) :
    Takes limit s w.depth (max n n') ⟨.expr (.call callee (es ++ [e])) f, [], w⟩ r := by
  have hlead : Leads (some limit) ⟨.expr (.call callee (es ++ [e])) f, [], w⟩
      ⟨.expr e f, [.argument a vs.reverse [] f], w⟩ := leads_call hc hes
  refine (he.onto fun u hs hd => ?_).of_leads hlead
  refine (h u hs hd).of_leads ⟨1, ?_⟩
  simp [after, step, resume, arguments]

end MonkeyLang.Machine
