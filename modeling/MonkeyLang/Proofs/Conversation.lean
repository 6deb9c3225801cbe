/-
Interactive sessions one after another. An input is read line by line, and a
session goes on from line to line with its variables only: what was printed
before makes no difference to it. So an input whose first part ends with a line
is a session over that part, without its end, and then one over the rest.
-/
import MonkeyLang.Proofs.Locality
import MonkeyLang.Proofs.Series
import MonkeyLang.Session.Prompt

namespace MonkeyLang

/-! ## What was printed before -/

/-- The world with this text printed before all that was. -/
def World.behind (text : String) (w : World) : World := { w with output := text ++ w.output }

namespace Session

/-- The session with this text printed before all that was. -/
def behind (text : String) (s : Session) : Session := { s with world := s.world.behind text }

/-- The session with nothing printed. -/
def silent (s : Session) : Session := s.takeOutput.2

theorem behind_silent (s : Session) : s.silent.behind s.world.output = s := by
  simp only [silent, takeOutput, behind, World.behind, String.append_empty]

@[simp] theorem silent_silent (s : Session) : s.silent.silent = s.silent := rfl

theorem print_behind (text more : String) (s : Session) :
    (s.behind text).print more = (s.print more).behind text := by
  simp only [behind, print, World.behind, World.print, String.append_assoc]

end Session

section

variable {L : Law} {before text : String} {w w' : World}

/-- Worlds that agree on all frames are the same but for what was printed before. -/
theorem World.Agrees.eq_behind (h : w.Agrees L before (text ++ before) w')
    (hL : ∀ f n, L.frame n f) : w' = w.behind text := by
  obtain ⟨t, ht, ht'⟩ := h.output
  have hstore : w.store.frames = w'.store.frames :=
    Array.ext_getElem? fun f => h.frames f ⟨0, hL f 0⟩
  have houtput : w'.output = text ++ w.output := by
    rw [ht, ht', String.append_assoc]
  obtain ⟨⟨frames⟩, functions, depth, output, draws, drawn⟩ := w'
  obtain rfl : w.store.frames = frames := hstore
  obtain rfl : w.functions = functions := h.functions
  obtain rfl : w.depth = depth := h.depth
  obtain rfl : w.draws = draws := h.draws
  obtain rfl : w.drawn = drawn := h.drawn
  exact congrArg (fun o => World.mk w.store w.functions w.depth o w.draws w.drawn) houtput

/-- A program runs the same whatever was printed before. -/
theorem Program.run_behind (limit : Option Nat) (n : Nat) (p : Program) (f : FrameId)
    (text : String) (w : World) :
    p.run limit n f (w.behind text) = (p.run limit n f w).map fun r => (r.1, r.2.behind text) := by
  -- The two runs go side by side under a law that allows all frames.
  have hall : ∀ g n, (Law.within (w.store.Reaches fun _ => True) w.size).frame n g :=
    fun g n => .inl (.root trivial)
  have hm : (Machine.load p f w).Obeys (.within (w.store.Reaches fun _ => True) w.size) :=
    ⟨w.obeys_within _, ⟨Block.obeys_within p, hall f _⟩, List.forall_mem_nil _⟩
  have halike : w.Alike (w.store.Reaches fun _ => True) (w.behind text) :=
    ⟨rfl, fun _ _ => rfl, rfl, rfl, rfl, rfl⟩
  have hstart : Machine.Twins (.within (w.store.Reaches fun _ => True) w.size) w.output
      (text ++ w.output) (.load p f w) (.load p f (w.behind text)) := ⟨rfl, rfl, halike.agrees⟩
  have htwins := hstart.after limit hm n
  simp only [Program.run, Machine.run_eq, ← htwins.outcome?, htwins.world.eq_behind hall,
    Option.map_map]
  rfl

end

namespace Session

variable {n k : Nat} {text source all : String} {s s' t : Session} {a b l : List UInt8}
  {ls ls' : List (List UInt8)} {q r : Except HostError Unit}

theorem run_behind (n : Nat) (source text : String) (s : Session) :
    (s.behind text).run n source = (s.run n source).map fun r => (r.1, r.2.behind text) := by
  simp only [run]
  split
  · simp only [runProgram, behind, Program.run_behind, Option.map_map]
    rfl
  · rfl

theorem line_behind (n : Nat) (source text : String) (s : Session) :
    (s.behind text).line n source = (s.line n source).map (behind text) := by
  simp only [line]
  split
  · rfl
  · rw [run_behind, Option.map_map, Option.map_map]
    congr 1
    funext ⟨answer, t⟩
    simp only [Function.comp_apply, print_behind]
    split <;> rfl

theorem converse_behind (n : Nat) (ls : List (List UInt8)) (text : String) (s : Session) :
    converse n ls (s.behind text) = (converse n ls s).map fun r => (r.1, r.2.behind text) := by
  induction ls generalizing s with
  | nil => simp only [converse, print_behind, Option.map_some]
  | cons l ls ih =>
    simp only [converse]
    cases decode? l with
    | none => simp only [print_behind, Option.map_some]
    | some source =>
      simp only [print_behind, line_behind, Option.bind_eq_bind]
      cases (s.print prompt).line n source with
      | none => rfl
      | some t => exact ih t

/-! ## More steps -/

theorem line_mono (h : s.line n source = some t) (hle : n ≤ k) : s.line k source = some t := by
  simp only [line] at h ⊢
  split at h
  · next hblank => rw [if_pos hblank, h]
  · next hblank =>
    obtain ⟨x, hx, hr⟩ := Option.map_eq_some_iff.1 h
    rw [if_neg hblank, run_mono hx hle, Option.map_some, hr]

theorem converse_mono {x : Except HostError Unit × Session} (h : converse n ls s = some x)
    (hle : n ≤ k) : converse k ls s = some x := by
  induction ls generalizing s with
  | nil => exact h
  | cons l ls ih =>
    simp only [converse] at h ⊢
    cases hl : decode? l with
    | none => simpa only [hl] using h
    | some source =>
      simp only [hl, Option.bind_eq_bind, Option.bind_eq_some_iff] at h ⊢
      obtain ⟨t, ht, hrest⟩ := h
      exact ⟨t, line_mono ht hle, ih hrest⟩

/-! ## One part after the other -/

/-- The session after these lines, at the point where the next prompt comes. -/
def lines (n : Nat) : List (List UInt8) → Session → Option Session
  | [], s => some s
  | l :: ls, s => do
    let source ← decode? l
    let s ← (s.print prompt).line n source
    lines n ls s

theorem lines_mono (h : lines n ls s = some t) (hle : n ≤ k) : lines k ls s = some t := by
  induction ls generalizing s with
  | nil => exact h
  | cons l ls ih =>
    simp only [lines, Option.bind_eq_bind, Option.bind_eq_some_iff] at h ⊢
    obtain ⟨source, hl, t, ht, hrest⟩ := h
    exact ⟨source, hl, t, line_mono ht hle, ih hrest⟩

theorem lines_unique (h : lines n ls s = some t) (h' : lines k ls s = some s') : t = s' := by
  have hn := lines_mono h (Nat.le_max_left n k)
  have hk := lines_mono h' (Nat.le_max_right n k)
  exact Option.some.inj (hn.symm.trans hk)

/-- Lines of valid text are read to the end, and then come those behind them. -/
theorem converse_append (h : ∀ l ∈ ls, (decode? l).isSome) :
    converse n (ls ++ ls') s = (lines n ls s).bind (converse n ls') := by
  induction ls generalizing s with
  | nil => rfl
  | cons l ls ih =>
    obtain ⟨hl, hls⟩ := List.forall_mem_cons.1 h
    obtain ⟨source, hsource⟩ := Option.isSome_iff_exists.1 hl
    simp only [List.cons_append, converse, lines, hsource, Option.bind_eq_bind, Option.bind_some,
      Option.bind_assoc, ih hls]

theorem splitLines_ne_nil (h : a ≠ []) : splitLines a ≠ [] := by
  cases a with
  | nil => exact absurd rfl h
  | cons c cs =>
    simp only [splitLines]
    split
    · exact List.cons_ne_nil _ _
    · split <;> exact List.cons_ne_nil _ _

/-- No line goes across the end of one. -/
theorem splitLines_append (h : a = [] ∨ a.getLast? = some 10) (b : List UInt8) :
    splitLines (a ++ b) = splitLines a ++ splitLines b := by
  induction a with
  | nil => rfl
  | cons c cs ih =>
    have hlast := h.resolve_left (List.cons_ne_nil c cs)
    simp only [List.cons_append, splitLines]
    by_cases hc : c = 10
    · have hcs : cs = [] ∨ cs.getLast? = some 10 := by
        cases cs with
        | nil => exact .inl rfl
        | cons d ds => exact .inr (by rwa [List.getLast?_cons_cons] at hlast)
      rw [if_pos hc, if_pos hc, ih hcs, List.cons_append]
    · cases cs with
      | nil => exact absurd (Option.some.inj hlast) hc
      | cons d ds =>
        rw [List.getLast?_cons_cons] at hlast
        rw [if_neg hc, if_neg hc, ih (.inr hlast)]
        cases hds : splitLines (d :: ds) with
        | nil => exact absurd hds (splitLines_ne_nil (List.cons_ne_nil d ds))
        | cons line lines => rfl

/-- From `s`, the session over the input prints this text, ends with this result and leaves `t`. -/
def Converses (s : Session) (input : List UInt8) (r : Except HostError Unit) (text : String)
    (t : Session) : Prop :=
  ∃ n u, s.silent.start n input = some (r, u) ∧ u.takeOutput = (text, t)

theorem exists_converses (h : (s.silent.start n a).map (fun x => (x.1.isOk, x.2.world.output)) =
    some (true, text)) : ∃ t, s.Converses a (.ok ()) text t := by
  obtain ⟨⟨r, u⟩, hu, hx⟩ := Option.map_eq_some_iff.1 h
  obtain ⟨hr, htext⟩ := Prod.mk.inj hx
  cases r with
  | error _ => exact absurd hr Bool.false_ne_true
  | ok _ => exact ⟨u.silent, n, u, hu, Prod.ext htext rfl⟩

/-- A session goes on behind what is printed already as it goes from nothing printed. -/
theorem converses_silent_iff :
    (∃ n u, converse n (splitLines b) s = some (r, u) ∧ u.takeOutput = (all, t)) ↔
      ∃ more, s.silent.Converses b r more t ∧ all = s.world.output ++ more := by
  have hrun (n : Nat) : converse n (splitLines b) s =
      (start n b s.silent).map fun r => (r.1, r.2.behind s.world.output) := by
    rw [start, ← converse_behind, behind_silent]
  simp only [Converses, silent_silent, hrun, Option.map_eq_some_iff]
  constructor
  · rintro ⟨n, u, ⟨⟨r, v⟩, hv, heq⟩, hu⟩
    obtain ⟨rfl, rfl⟩ := Prod.mk.inj heq
    obtain ⟨rfl, rfl⟩ := Prod.mk.inj hu
    exact ⟨v.world.output, ⟨n, v, hv, rfl⟩, rfl⟩
  · rintro ⟨more, ⟨n, v, hv, hu⟩, rfl⟩
    obtain ⟨rfl, rfl⟩ := Prod.mk.inj hu
    exact ⟨n, v.behind s.world.output, ⟨(r, v), hv, rfl⟩, rfl⟩

/-- A session over lines of valid text gets through to the last prompt. -/
theorem Converses.exists_lines (h : s.Converses a r text t)
    (hvalid : ∀ l ∈ splitLines a, (decode? l).isSome) :
    ∃ n m, lines n (splitLines a) s.silent = some m ∧ t = m.silent ∧ r = .ok () ∧
      text = m.world.output ++ (prompt ++ "\n") := by
  obtain ⟨n, u, hu, htake⟩ := h
  rw [start, ← List.append_nil (splitLines a), converse_append hvalid,
    Option.bind_eq_some_iff] at hu
  obtain ⟨m, hm, hend⟩ := hu
  obtain ⟨rfl, rfl⟩ := Prod.mk.inj (Option.some.inj hend)
  obtain ⟨rfl, rfl⟩ := Prod.mk.inj htake
  exact ⟨n, m, hm, rfl, rfl, rfl⟩

/-- If the first part of an input consists of whole lines of valid text, and the session over that
part ends, it ends without an error, and the session over the whole input is that over the rest, from
where the first has left off. What it prints is what the first prints up to the last prompt, and then
what the second prints. -/
theorem start_append (ha : a = [] ∨ a.getLast? = some 10)
    (hvalid : ∀ l ∈ splitLines a, (decode? l).isSome) (h : s.Converses a q text t)
    (b : List UInt8) :
    q = .ok () ∧ ∃ front, text = front ++ (prompt ++ "\n") ∧
      ∀ r all u, s.Converses (a ++ b) r all u ↔
        ∃ more, t.Converses b r more u ∧ all = front ++ more := by
  obtain ⟨n, m, hn, rfl, hq, htext⟩ := h.exists_lines hvalid
  refine ⟨hq, m.world.output, htext, fun r all u => ?_⟩
  have hsplit (k : Nat) : start k (a ++ b) s.silent =
      (lines k (splitLines a) s.silent).bind (converse k (splitLines b)) := by
    rw [start, splitLines_append ha, converse_append hvalid]
  rw [← converses_silent_iff, Converses]
  simp only [hsplit, Option.bind_eq_some_iff]
  constructor
  · rintro ⟨k, v, ⟨x, hx, hv⟩, hall⟩
    obtain rfl := lines_unique hx hn
    exact ⟨k, v, hv, hall⟩
  · rintro ⟨k, v, hv, hall⟩
    exact ⟨max n k, v, ⟨_, lines_mono hn (Nat.le_max_left n k),
      converse_mono hv (Nat.le_max_right n k)⟩, hall⟩

/-- Lines that do not parse, are blank, fail as they run and bind a variable. -/
def mixed : List UInt8 := "let = 1;\n \nfoo\nlet x = 7;\n".toUTF8.data.toList

/-- The session over those lines up to the prompt behind them. -/
def mixedFront : String :=
  ">> Woops! Parser Errors!\n\texpected next token to be IDENT, got = instead\n\t" ++
  "no prefix parse function for =\n>> >> ERROR: identifier not found: foo\n>> "

theorem start_append_mixed :
    (mixed = [] ∨ mixed.getLast? = some 10) ∧ (∀ l ∈ splitLines mixed, (decode? l).isSome) ∧
      ∃ t u, (fresh fun _ => 0).Converses mixed (.ok ()) (mixedFront ++ (prompt ++ "\n")) t ∧
        t.Converses [120] (.ok ()) ">> 7\n>> \n" u := by
  have hlast : mixed = [] ∨ mixed.getLast? = some 10 := .inr (by decide +kernel)
  have hvalid : ∀ l ∈ splitLines mixed, (decode? l).isSome := by decide +kernel
  obtain ⟨t, ht⟩ : ∃ t, (fresh fun _ => 0).Converses mixed (.ok ())
      (mixedFront ++ (prompt ++ "\n")) t := exists_converses (n := 30) (by decide +kernel)
  obtain ⟨u, hu⟩ : ∃ u, (fresh fun _ => 0).Converses (mixed ++ [120]) (.ok ())
      (mixedFront ++ ">> 7\n>> \n") u := exists_converses (n := 30) (by decide +kernel)
  obtain ⟨-, front, hfront, hiff⟩ := start_append hlast hvalid ht [120]
  obtain ⟨more, hmore, hall⟩ := (hiff _ _ _).1 hu
  obtain rfl := String.append_left_inj _ |>.1 hfront
  obtain rfl := String.append_right_inj _ |>.1 hall
  exact ⟨hlast, hvalid, t, u, ht, hmore⟩

end Session

end MonkeyLang
