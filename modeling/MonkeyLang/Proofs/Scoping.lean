/-
The laws of scopes. A name belongs to the first frame on the chain that has a
slot for it, so what a definition or an assignment does is said for all frames
at once: it shows from those whose chain comes to the changed slot before any
other slot of the name, and nowhere else. `Meanings` has no frames with slots,
only what each name means from each frame; a store answers every series of
operations as these meanings do.
-/
import MonkeyLang.Proofs.Chains
import MonkeyLang.Proofs.Unseen

namespace MonkeyLang

namespace Store

/-- The chain of `g` comes to `f` before any other frame with a slot for the name. -/
def Meets (s : Store) (g : FrameId) (x : String) (f : FrameId) : Prop :=
  ∃ before after, s.Chain g (before ++ f :: after) ∧ ∀ h ∈ before, s.slot? h x = none

/-- The first frame on the chain of `g` that has a slot for the name is `f`. -/
def Resolves (s : Store) (g : FrameId) (x : String) (f : FrameId) : Prop :=
  s.Meets g x f ∧ (s.slot? f x).isSome

variable {s : Store} {f g : FrameId} {x y : String} {v : Value} {l : List FrameId}

/-! ## Names and frames -/

/-- Whether a list splits at a member, with this in front of it. -/
theorem exists_split_iff {P : FrameId → Prop} :
    (∃ before after, l = before ++ f :: after ∧ ∀ h ∈ before, P h) ↔
      f ∈ l ∧ ∀ h ∈ l.takeWhile (· ≠ f), P h := by
  induction l with
  | nil => simp
  | cons g l ih =>
    by_cases hg : g = f
    · subst hg
      have hsplit : ∃ before after, g :: l = before ++ g :: after ∧ ∀ h ∈ before, P h :=
        ⟨[], l, rfl, List.forall_mem_nil _⟩
      simpa using hsplit
    · have hstep : (∃ before after, g :: l = before ++ f :: after ∧ ∀ h ∈ before, P h) ↔
          P g ∧ ∃ before after, l = before ++ f :: after ∧ ∀ h ∈ before, P h := by
        constructor
        · intro ⟨before, after, hl, hbefore⟩
          cases before with
          | nil => exact absurd (List.cons.inj hl).1 hg
          | cons k before =>
            obtain ⟨rfl, htail⟩ := List.cons.inj hl
            obtain ⟨hk, hbefore⟩ := List.forall_mem_cons.1 hbefore
            exact ⟨hk, before, after, htail, hbefore⟩
        · intro ⟨hk, before, after, hl, hbefore⟩
          exact ⟨g :: before, after, by rw [hl]; rfl, List.forall_mem_cons.2 ⟨hk, hbefore⟩⟩
      have hmem : f ∈ g :: l ↔ f ∈ l := by simp [Ne.symm hg]
      have htake : (g :: l).takeWhile (· ≠ f) = g :: l.takeWhile (· ≠ f) := by simp [hg]
      rw [hstep, ih, hmem, htake, List.forall_mem_cons]
      exact and_left_comm

theorem Chain.meets_iff (hl : s.Chain g l) :
    s.Meets g x f ↔ f ∈ l ∧ ∀ h ∈ l.takeWhile (· ≠ f), s.slot? h x = none := by
  rw [← exists_split_iff]
  constructor
  · intro ⟨before, after, hl', hbefore⟩
    exact ⟨before, after, hl.unique hl', hbefore⟩
  · intro ⟨before, after, hsplit, hbefore⟩
    exact ⟨before, after, hsplit ▸ hl, hbefore⟩

/-- A name belongs to the first frame with a slot for it. -/
theorem find?_eq_some_iff (hs : s.Acyclic) :
    s.find? g x = some (f, v) ↔ s.Meets g x f ∧ s.slot? f x = some v := by
  by_cases hg : g < s.frames.size
  · obtain ⟨l, hl⟩ := hs.exists_chain hg
    rw [hl.find?_eq, List.findSome?_eq_some_iff]
    constructor
    · intro ⟨before, h, after, hsplit, hh, hbefore⟩
      obtain ⟨u, hu, he⟩ := Option.map_eq_some_iff.1 hh
      obtain ⟨rfl, rfl⟩ := Prod.mk.inj he
      refine ⟨⟨before, after, hsplit ▸ hl, fun k hk => ?_⟩, hu⟩
      simpa using hbefore k hk
    · intro ⟨⟨before, after, hl', hbefore⟩, hv⟩
      refine ⟨before, f, after, hl.unique hl', by simp [hv], fun k hk => ?_⟩
      simp [hbefore k hk]
  · rw [find?_eq_none (Nat.not_lt.1 hg)]
    constructor
    · intro h
      cases h
    · intro ⟨⟨_, _, hl, _⟩, _⟩
      exact absurd hl.lt hg

theorem resolve?_eq_some_iff (hs : s.Acyclic) : s.resolve? g x = some f ↔ s.Resolves g x f := by
  rw [resolve?, Resolves, Option.map_eq_some_iff, Option.isSome_iff_exists]
  constructor
  · rintro ⟨⟨f, v⟩, hfind, rfl⟩
    obtain ⟨hm, hv⟩ := (find?_eq_some_iff hs).1 hfind
    exact ⟨hm, v, hv⟩
  · intro h
    obtain ⟨hm, v, hv⟩ := h
    exact ⟨(f, v), (find?_eq_some_iff hs).2 ⟨hm, hv⟩, rfl⟩

theorem get?_eq_some_iff (hs : s.Acyclic) :
    s.get? g x = some v ↔ ∃ h, s.Resolves g x h ∧ s.slot? h x = some v := by
  rw [get?, Option.map_eq_some_iff]
  constructor
  · rintro ⟨⟨h, v⟩, hfind, rfl⟩
    obtain ⟨hm, hv⟩ := (find?_eq_some_iff hs).1 hfind
    exact ⟨h, ⟨hm, by rw [hv]; rfl⟩, hv⟩
  · intro hr
    obtain ⟨h, ⟨hm, -⟩, hv⟩ := hr
    exact ⟨(h, v), (find?_eq_some_iff hs).2 ⟨hm, hv⟩, rfl⟩

theorem Acyclic.meets_self (hs : s.Acyclic) (hf : f < s.frames.size) (x : String) :
    s.Meets f x f := by
  obtain ⟨l, hl⟩ := hs.exists_chain hf
  cases hl with
  | root hf hp => exact ⟨[], [], .root hf hp, List.forall_mem_nil _⟩
  | @under _ _ _ l hf hp hl => exact ⟨[], l, .under hf hp hl, List.forall_mem_nil _⟩

/-! ## What shows where -/

/-- A search along a list, where `f` alone gives something else than before. -/
theorem findSome?_change {F G : FrameId → Option (FrameId × Value)} {r : FrameId × Value}
    (hf : G f = some r) (hother : ∀ h, h ≠ f → G h = F h) (l : List FrameId) :
    ((f ∈ l ∧ ∀ h ∈ l.takeWhile (· ≠ f), F h = none) → l.findSome? G = some r) ∧
      (¬(f ∈ l ∧ ∀ h ∈ l.takeWhile (· ≠ f), F h = none) → l.findSome? G = l.findSome? F) := by
  induction l with
  | nil => simp
  | cons h l ih =>
    by_cases hh : h = f
    · subst hh
      simp [hf]
    · rw [List.findSome?_cons, List.findSome?_cons, hother h hh]
      cases hF : F h with
      | some q => simp [hh, hF]
      | none => simpa [hh, Ne.symm hh, hF] using ih

/-- A definition in `f` is found from the frames whose chain comes to `f` first. -/
theorem find?_define_self (hs : s.Acyclic) (hf : f < s.frames.size) (g : FrameId) (x : String)
    (v : Value) :
    (s.Meets g x f → (s.define f x v).find? g x = some (f, v)) ∧
      (¬s.Meets g x f → (s.define f x v).find? g x = s.find? g x) := by
  by_cases hg : g < s.frames.size
  · obtain ⟨l, hl⟩ := hs.exists_chain hg
    have hchange := findSome?_change (f := f) (r := (f, v))
      (F := fun h => (s.slot? h x).map (h, ·))
      (G := fun h => ((s.define f x v).slot? h x).map (h, ·))
      (by simp [slot?_define hf]) (fun h hh => by simp [slot?_define hf, hh]) l
    simp only [Option.map_eq_none_iff] at hchange
    rwa [(hl.define f x v).find?_eq, hl.find?_eq, hl.meets_iff]
  · have hnone : (s.define f x v).find? g x = s.find? g x := by
      rw [find?_eq_none (Nat.not_lt.1 hg), find?_eq_none]
      simpa [define] using hg
    have hfar : ¬s.Meets g x f := by
      intro hm
      obtain ⟨_, _, hl, -⟩ := hm
      exact hg hl.lt
    exact ⟨fun hm => absurd hm hfar, fun _ => hnone⟩

/-- What a definition shows: its value from the frames whose chain comes to `f` first, and elsewhere
and under other names what was there. -/
theorem get?_define_cases (hs : s.Acyclic) (hf : f < s.frames.size) (g : FrameId) (x y : String)
    (v : Value) :
    (y = x ∧ s.Meets g x f → (s.define f x v).get? g y = some v) ∧
      (¬(y = x ∧ s.Meets g x f) → (s.define f x v).get? g y = s.get? g y) := by
  simp only [get?]
  by_cases hy : y = x
  · subst hy
    obtain ⟨hshown, hkept⟩ := find?_define_self hs hf g y v
    refine ⟨fun h => ?_, fun h => ?_⟩
    · rw [hshown h.2, Option.map_some]
    · rw [hkept fun hm => h ⟨rfl, hm⟩]
  · simp [hy, find?_define hy]

/-- What an assignment shows: its value from the frames where the name belongs to the same frame. -/
theorem get?_assign_cases (hs : s.Acyclic) (hx : (s.assign f x v).1 = true) (g : FrameId)
    (y : String) :
    (y = x ∧ (∃ h, s.Resolves f x h ∧ s.Resolves g x h) →
        (s.assign f x v).2.get? g y = some v) ∧
      (¬(y = x ∧ ∃ h, s.Resolves f x h ∧ s.Resolves g x h) →
        (s.assign f x v).2.get? g y = s.get? g y) := by
  unfold assign at hx ⊢
  cases hr : s.resolve? f x with
  | none => simp [hr] at hx
  | some h =>
    have hh := (resolve?_eq_some_iff hs).1 hr
    obtain ⟨⟨before, after, hl, -⟩, hslot⟩ := id hh
    have hlt : h < s.frames.size := by
      obtain ⟨l, hl, -⟩ := hl.of_mem (g := h) (by simp)
      exact hl.lt
    have hmeets : (∃ k, s.Resolves f x k ∧ s.Resolves g x k) ↔ s.Meets g x h := by
      constructor
      · intro ⟨k, hk, hg⟩
        rw [← resolve?_eq_some_iff hs, hr] at hk
        cases hk
        exact hg.1
      · intro hg
        exact ⟨h, hh, hg, hslot⟩
    rw [hmeets]
    exact get?_define_cases hs hlt g x y v

theorem assign_found_iff (f : FrameId) (x : String) (v : Value) :
    (s.assign f x v).1 = true ↔ (s.get? f x).isSome := by
  unfold assign get? resolve?
  cases s.find? f x <;> simp

theorem assign_not_found (h : (s.assign f x v).1 = false) : (s.assign f x v).2 = s := by
  unfold assign at h ⊢
  cases hr : s.resolve? f x with
  | none => rfl
  | some g => simp [hr] at h

/-! ## Series of operations -/

/-- What may be asked of a store. -/
inductive Operation where
  | newFrame (parent : Option FrameId)
  | define (f : FrameId) (x : String) (v : Value)
  | assign (f : FrameId) (x : String) (v : Value)
  | get (f : FrameId) (x : String)

inductive Reply where
  | frame (f : FrameId)
  | done
  | found (b : Bool)
  | value (v : Option Value)

/-- The operation is about frames that there are, when there are `n`. -/
def Operation.Fits (n : Nat) : Operation → Prop
  | newFrame p => ∀ f ∈ p, f < n
  | define f _ _ | assign f _ _ | get f _ => f < n

/-- The number of frames after the operation. -/
def Operation.count (n : Nat) : Operation → Nat
  | newFrame _ => n + 1
  | define _ _ _ | assign _ _ _ | get _ _ => n

/-- Each operation is about frames that there are by then. -/
def Operation.AllFit : Nat → List Operation → Prop
  | _, [] => True
  | n, op :: ops => op.Fits n ∧ AllFit (op.count n) ops

/-- The replies to operations that are performed one after another. -/
def Operation.replies {α : Type} (perform : Operation → α → Reply × α) :
    List Operation → α → List Reply
  | [], _ => []
  | op :: ops, a => (perform op a).1 :: replies perform ops (perform op a).2

def perform (op : Operation) (s : Store) : Reply × Store :=
  match op with
  | .newFrame p => (.frame (s.newFrame p []).1, (s.newFrame p []).2)
  | .define f x v => (.done, s.define f x v)
  | .assign f x v => (.found (s.assign f x v).1, (s.assign f x v).2)
  | .get f x => (.value (s.get? f x), s)

end Store

/-- What the names mean, without slots: for each frame the frames from it upwards, and from each
frame the frame that a name belongs to and its value. -/
structure Meanings where
  size : Nat
  chain : FrameId → List FrameId
  meaning : FrameId → String → Option (FrameId × Value)

namespace Meanings

def empty : Meanings := ⟨0, fun _ => [], fun _ _ => none⟩

/-- The frame that the name belongs to as seen from `f`. -/
def holder (m : Meanings) (f : FrameId) (x : String) : Option FrameId := (m.meaning f x).map (·.1)

/-- The chain of `g` comes to `f` before any other frame to which the name belongs itself. -/
def meets (m : Meanings) (g : FrameId) (x : String) (f : FrameId) : Bool :=
  f ∈ m.chain g ∧ ∀ h ∈ (m.chain g).takeWhile (· ≠ f), m.holder h x ≠ some h

/-- A new frame sees what its parent sees. -/
def newFrame (m : Meanings) (p : Option FrameId) : Meanings where
  size := m.size + 1
  chain g := if g = m.size then g :: p.elim [] m.chain else m.chain g
  meaning g x := if g = m.size then p.bind (m.meaning · x) else m.meaning g x

/-- The new variable is seen from the frames whose chain comes to it first. -/
def define (m : Meanings) (f : FrameId) (x : String) (v : Value) : Meanings :=
  { m with meaning := fun g y => if y = x ∧ m.meets g x f then some (f, v) else m.meaning g y }

/-- The new value is seen where the name belongs to the same frame. -/
def assign (m : Meanings) (f : FrameId) (x : String) (v : Value) : Bool × Meanings :=
  match m.holder f x with
  | some h => (true, { m with
      meaning := fun g y => if y = x ∧ m.holder g x = some h then some (h, v) else m.meaning g y })
  | none => (false, m)

def perform (op : Store.Operation) (m : Meanings) : Store.Reply × Meanings :=
  match op with
  | .newFrame p => (.frame m.size, m.newFrame p)
  | .define f x v => (.done, m.define f x v)
  | .assign f x v => (.found (m.assign f x v).1, (m.assign f x v).2)
  | .get f x => (.value ((m.meaning f x).map (·.2)), m)

end Meanings

/-! ## The store has the meanings -/

namespace Store

variable {s : Store} {m : Meanings} {f g h : FrameId} {x : String} {v : Value} {p : Option FrameId}
  {op : Operation} {ops : List Operation}

/-- The names of the store mean this. -/
structure Shows (s : Store) (m : Meanings) : Prop where
  size : m.size = s.frames.size
  chain {f : FrameId} : f < s.frames.size → s.Chain f (m.chain f)
  meaning {f : FrameId} : f < s.frames.size → ∀ x, m.meaning f x = s.find? f x

theorem shows_empty : empty.Shows .empty :=
  ⟨rfl, fun hf => absurd hf (Nat.not_lt_zero _), fun hf => absurd hf (Nat.not_lt_zero _)⟩

theorem Acyclic.exists_shows (hs : s.Acyclic) : ∃ m, s.Shows m := by
  have hchain : ∀ f, ∃ l, f < s.frames.size → s.Chain f l := by
    intro f
    by_cases hf : f < s.frames.size
    · obtain ⟨l, hl⟩ := hs.exists_chain hf
      exact ⟨l, fun _ => hl⟩
    · exact ⟨[], fun h => absurd h hf⟩
  choose chain hchain using hchain
  exact ⟨⟨s.frames.size, chain, s.find?⟩, rfl, fun {f} hf => hchain f hf, fun _ _ => rfl⟩

theorem Shows.acyclic (hs : s.Shows m) : s.Acyclic :=
  acyclic_of_chains fun _ hf => ⟨_, hs.chain hf⟩

theorem Shows.holder (hs : s.Shows m) (hf : f < s.frames.size) (x : String) :
    m.holder f x = s.resolve? f x := by
  rw [Meanings.holder, hs.meaning hf, resolve?]

/-- A name belongs to the frame where it is looked up if that has a slot for it. -/
theorem Shows.holder_self_iff (hs : s.Shows m) (hf : f < s.frames.size) :
    m.holder f x = some f ↔ s.slot? f x ≠ none := by
  rw [hs.holder hf, resolve?_eq_some_iff hs.acyclic, Resolves, Option.isSome_iff_ne_none]
  exact and_iff_right (hs.acyclic.meets_self hf x)

theorem Shows.meets_iff (hs : s.Shows m) (hg : g < s.frames.size) :
    m.meets g x f = true ↔ s.Meets g x f := by
  have hl := hs.chain hg
  rw [hl.meets_iff, Meanings.meets, decide_eq_true_eq]
  refine and_congr_right fun _ => forall₂_congr fun h hh => ?_
  obtain ⟨l, hlh, -⟩ := hl.of_mem (List.takeWhile_subset _ hh)
  rw [ne_eq, hs.holder_self_iff hlh.lt, Classical.not_not]

/-- A new frame sees what its parent sees. -/
theorem Shows.newFrame (hs : s.Shows m) (hp : ∀ f ∈ p, f < s.frames.size) :
    (s.newFrame p []).2.Shows (m.newFrame p) := by
  have hself : (s.newFrame p []).2.frames[s.frames.size]? = some ⟨p, []⟩ := by simp [Store.newFrame]
  have hsize : (s.newFrame p []).2.frames.size = s.frames.size + 1 := by simp [Store.newFrame]
  have hkeeps := s.keeps_newFrame p []
  have hnew : (s.newFrame p []).2.Chain s.frames.size (s.frames.size :: p.elim [] m.chain) := by
    cases p with
    | none => exact .root hself rfl
    | some q => exact .under hself rfl ((hs.chain (hp q rfl)).keeps hkeeps)
  refine ⟨by simp [Meanings.newFrame, hs.size, hsize], fun {g} hg => ?_, fun {g} hg x => ?_⟩
  · rw [hsize] at hg
    simp only [Meanings.newFrame, hs.size]
    split
    · next heq => exact heq ▸ hnew
    · next hne =>
      have hlt : g < s.frames.size := Nat.lt_of_le_of_ne (Nat.le_of_lt_succ hg) hne
      exact (hs.chain hlt).keeps hkeeps
  · rw [hsize] at hg
    simp only [Meanings.newFrame, hs.size]
    split
    · next heq =>
      rw [heq]
      cases p with
      | none => exact (find?_root hself rfl x).symm
      | some q =>
        rw [(hs.chain (hp q rfl)).find?_newFrame]
        exact hs.meaning (hp q rfl) x
    · next hne =>
      have hlt : g < s.frames.size := Nat.lt_of_le_of_ne (Nat.le_of_lt_succ hg) hne
      rw [hs.meaning hlt, (hs.chain hlt).find?_keeps hkeeps]

theorem Shows.define (hs : s.Shows m) (hf : f < s.frames.size) (x : String) (v : Value) :
    (s.define f x v).Shows (m.define f x v) := by
  have hsize : (s.define f x v).frames.size = s.frames.size := Array.size_modify
  refine ⟨hsize ▸ hs.size, fun {g} hg => ?_, fun {g} hg y => ?_⟩
  · exact (hs.chain (hsize ▸ hg)).define f x v
  · rw [hsize] at hg
    simp only [Meanings.define, hs.meaning hg]
    by_cases hy : y = x
    · subst hy
      obtain ⟨hshown, hkept⟩ := find?_define_self hs.acyclic hf g y v
      split
      · next hm => exact (hshown ((hs.meets_iff hg).1 hm.2)).symm
      · next hm => exact (hkept fun h => hm ⟨rfl, (hs.meets_iff hg).2 h⟩).symm
    · rw [if_neg fun h => hy h.1, find?_define hy]

theorem Shows.assign (hs : s.Shows m) (hf : f < s.frames.size) (x : String) (v : Value) :
    (m.assign f x v).1 = (s.assign f x v).1 ∧ (s.assign f x v).2.Shows (m.assign f x v).2 := by
  unfold Meanings.assign Store.assign
  rw [hs.holder hf]
  cases hr : s.resolve? f x with
  | none => exact ⟨rfl, hs⟩
  | some h =>
    obtain ⟨⟨before, after, hl, -⟩, hslot⟩ := (resolve?_eq_some_iff hs.acyclic).1 hr
    obtain ⟨l, hlh, -⟩ := hl.of_mem (g := h) (by simp)
    have hdefine := hs.define hlh.lt x v
    refine ⟨rfl, hdefine.size, hdefine.chain, fun {g} hg y => ?_⟩
    rw [← hdefine.meaning hg]
    have hlt : g < s.frames.size := by simpa [Store.define] using hg
    have hiff : m.holder g x = some h ↔ m.meets g x h = true := by
      rw [hs.holder hlt, resolve?_eq_some_iff hs.acyclic, hs.meets_iff hlt]
      exact and_iff_left hslot
    simp only [Meanings.define, hiff]

/-- Every operation on the store is the operation on its meanings. -/
theorem Shows.perform (hs : s.Shows m) (hop : op.Fits s.frames.size) :
    (Store.perform op s).1 = (Meanings.perform op m).1 ∧
      (Store.perform op s).2.Shows (Meanings.perform op m).2 ∧
      (Store.perform op s).2.frames.size = op.count s.frames.size := by
  cases op with
  | newFrame p => exact ⟨congrArg Reply.frame hs.size.symm, hs.newFrame hop, Array.size_push _⟩
  | define f x v => exact ⟨rfl, hs.define hop x v, Array.size_modify⟩
  | assign f x v =>
    obtain ⟨hfound, hshows⟩ := hs.assign hop x v
    refine ⟨congrArg Reply.found hfound.symm, hshows, ?_⟩
    simp only [Store.perform, Store.assign]
    split
    · exact Array.size_modify
    · rfl
  | get f x =>
    refine ⟨?_, hs, rfl⟩
    simp only [Store.perform, Meanings.perform, hs.meaning hop]
    rfl

theorem Shows.replies (hs : s.Shows m) (hops : Operation.AllFit s.frames.size ops) :
    Operation.replies Store.perform ops s = Operation.replies Meanings.perform ops m := by
  induction ops generalizing s m with
  | nil => rfl
  | cons op ops ih =>
    obtain ⟨hop, hops⟩ := hops
    obtain ⟨hreply, hshows, hcount⟩ := hs.perform hop
    rw [← hcount] at hops
    simp only [Operation.replies, hreply, ih hshows hops]

/-- The laws of scopes. A name has the value that the first frame on the chain holds. A definition
shows from the frames whose chain comes to its frame before any other slot of the name, and an
assignment, which has to find the name, from those where the name belongs to the same frame;
everything else stays as it was. The replies to any operations follow from the meanings alone. -/
theorem scope_laws (hs : s.Acyclic) :
    (∀ g x v, s.get? g x = some v ↔ ∃ h, s.Resolves g x h ∧ s.slot? h x = some v) ∧
    (∀ f x v, f < s.frames.size → ∀ g y,
      (y = x ∧ s.Meets g x f → (s.define f x v).get? g y = some v) ∧
      (¬(y = x ∧ s.Meets g x f) → (s.define f x v).get? g y = s.get? g y)) ∧
    (∀ f x v,
      ((s.assign f x v).1 = true ↔ (s.get? f x).isSome) ∧
      ((s.assign f x v).1 = true → ∀ g y,
        (y = x ∧ (∃ h, s.Resolves f x h ∧ s.Resolves g x h) →
          (s.assign f x v).2.get? g y = some v) ∧
        (¬(y = x ∧ ∃ h, s.Resolves f x h ∧ s.Resolves g x h) →
          (s.assign f x v).2.get? g y = s.get? g y)) ∧
      ((s.assign f x v).1 = false → (s.assign f x v).2 = s)) ∧
    (∃ m, s.Shows m ∧ ∀ ops, Operation.AllFit s.frames.size ops →
      Operation.replies Store.perform ops s = Operation.replies Meanings.perform ops m) ∧
    ∀ ops, Operation.AllFit 0 ops →
      Operation.replies Store.perform ops empty =
        Operation.replies Meanings.perform ops .empty := by
  refine ⟨fun g x v => get?_eq_some_iff hs, fun f x v hf g y => get?_define_cases hs hf g x y v,
    fun f x v => ⟨assign_found_iff f x v, fun hx g y => get?_assign_cases hs hx g y,
      assign_not_found⟩, ?_, fun ops hops => shows_empty.replies hops⟩
  obtain ⟨m, hm⟩ := hs.exists_shows
  exact ⟨m, hm, fun ops hops => hm.replies hops⟩

/-- Two branches below a global frame, and a frame below the first of them. -/
def branches : Store :=
  ⟨#[⟨none, [("a", .integer 1), ("b", .integer 2)]⟩, ⟨some 0, [("a", .integer 3)]⟩, ⟨some 1, []⟩,
    ⟨some 0, []⟩]⟩

theorem scope_laws_branches :
    let ops : List Operation := [.newFrame none, .define 0 "a" .null, .newFrame (some 0),
      .assign 1 "a" (.boolean true), .define 1 "a" (.boolean false), .get 0 "a", .get 1 "a",
      .assign 0 "b" .null]
    branches.Acyclic ∧
      (branches.define 1 "b" (.integer 4)).get? 2 "b" = some (.integer 4) ∧
      (branches.define 1 "b" (.integer 4)).get? 3 "b" = branches.get? 3 "b" ∧
      (branches.assign 2 "a" (.integer 5)).2.get? 3 "a" = branches.get? 3 "a" ∧
      Operation.replies Store.perform ops empty = [.frame 0, .done, .frame 1, .found true, .done,
        .value (some (.boolean true)), .value (some (.boolean false)), .found false] := by
  intro ops
  have hzero : branches.Chain 0 [0] := .root rfl rfl
  have hone : branches.Chain 1 [1, 0] := .under rfl rfl hzero
  have htwo : branches.Chain 2 [2, 1, 0] := .under rfl rfl hone
  have hthree : branches.Chain 3 [3, 0] := .under rfl rfl hzero
  have hs : branches.Acyclic := by
    refine acyclic_of_chains fun f hf => ?_
    match f with
    | 0 => exact ⟨_, hzero⟩
    | 1 => exact ⟨_, hone⟩
    | 2 => exact ⟨_, htwo⟩
    | 3 => exact ⟨_, hthree⟩
    | f + 4 => exact absurd hf (Nat.not_lt.2 (Nat.le_add_left 4 f))
  obtain ⟨-, hdefine, hassign, -, hreplies⟩ := scope_laws hs
  have hmeets : branches.Meets 2 "b" 1 := htwo.meets_iff.2 (by decide)
  have hapart : ¬branches.Meets 3 "b" 1 := fun h => absurd (hthree.meets_iff.1 h).1 (by decide)
  have hresolves : branches.Resolves 2 "a" 1 := ⟨htwo.meets_iff.2 (by decide), rfl⟩
  have hdiffer : ¬∃ h, branches.Resolves 2 "a" h ∧ branches.Resolves 3 "a" h := by
    intro ⟨h, h₂, h₃⟩
    rw [← resolve?_eq_some_iff hs] at hresolves h₂
    rw [hresolves] at h₂
    cases h₂
    exact absurd (hthree.meets_iff.1 h₃.1).1 (by decide)
  refine ⟨hs, (hdefine 1 "b" _ (by decide) 2 "b").1 ⟨rfl, hmeets⟩,
    (hdefine 1 "b" _ (by decide) 3 "b").2 fun h => hapart h.2,
    ((hassign 2 "a" _).2.1 rfl 3 "a").2 fun h => hdiffer h.2, (hreplies ops ?_).trans rfl⟩
  simp [ops, Operation.AllFit, Operation.Fits, Operation.count]

end Store

end MonkeyLang
