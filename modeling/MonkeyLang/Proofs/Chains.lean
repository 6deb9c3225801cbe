/-
Chains of frames. Where the parents go round in no circle, they lead from every
frame upwards along a chain, and a name is looked up along it: frames elsewhere
make no difference.
-/
import Mathlib.Data.Fintype.Card
import Mathlib.Data.Fintype.EquivFin
import Mathlib.Data.List.Perm.Subperm
import Mathlib.Logic.Relation
import MonkeyLang.Store

namespace MonkeyLang

namespace Store

/-! ## Chains -/

/-- `p` is the parent of `f`. -/
def IsParent (s : Store) (f p : FrameId) : Prop :=
  ∃ frame, s.frames[f]? = some frame ∧ frame.parent = some p

/-- Every parent is a frame of the store, and the parents go round in no circle. -/
structure Acyclic (s : Store) : Prop where
  closed {f p : FrameId} : s.IsParent f p → p < s.frames.size
  irrefl (f : FrameId) : ¬Relation.TransGen s.IsParent f f

/-- The frames from `f` upwards. -/
inductive Chain (s : Store) : FrameId → List FrameId → Prop
  | root {f : FrameId} {frame : Frame} : s.frames[f]? = some frame → frame.parent = none →
      Chain s f [f]
  | under {f p : FrameId} {frame : Frame} {l : List FrameId} : s.frames[f]? = some frame →
      frame.parent = some p → Chain s p l → Chain s f (f :: l)

/-- What the frame itself holds under the name. -/
def slot? (s : Store) (f : FrameId) (x : String) : Option Value :=
  s.frames[f]?.bind (·.slots.get? x)

variable {s t : Store} {f g p : FrameId} {x : String} {l l' : List FrameId} {n : Nat}
  {frame : Frame}

theorem Chain.lt (hl : s.Chain f l) : f < s.frames.size := by
  cases hl with
  | root hf _ => exact (Array.getElem?_eq_some_iff.1 hf).1
  | under hf _ _ => exact (Array.getElem?_eq_some_iff.1 hf).1

theorem Chain.parent (hl : s.Chain f l) (hp : s.IsParent f p) :
    ∃ l', s.Chain p l' ∧ l = f :: l' := by
  obtain ⟨frame, hf, hp⟩ := hp
  cases hl with
  | root hf' hp' =>
    rw [hf] at hf'
    cases hf'
    simp [hp] at hp'
  | under hf' hp' hl' =>
    rw [hf] at hf'
    cases hf'
    rw [hp] at hp'
    cases hp'
    exact ⟨_, hl', rfl⟩

theorem Chain.unique (hl : s.Chain f l) (hl' : s.Chain f l') : l = l' := by
  induction hl generalizing l' with
  | root hf hp =>
    cases hl' with
    | root => rfl
    | under hf' hp' _ =>
      rw [hf] at hf'
      cases hf'
      simp [hp] at hp'
  | under hf hp _ ih =>
    obtain ⟨l, hl, rfl⟩ := hl'.parent ⟨_, hf, hp⟩
    rw [ih hl]

/-- Each frame on a chain has the rest of it for its own chain. -/
theorem Chain.of_mem (hl : s.Chain f l) (hg : g ∈ l) : ∃ l', s.Chain g l' ∧ l' <:+ l := by
  induction hl with
  | root hf hp =>
    obtain rfl := List.mem_singleton.1 hg
    exact ⟨_, .root hf hp, List.suffix_refl _⟩
  | under hf hp hl ih =>
    rcases List.mem_cons.1 hg with rfl | hg
    · exact ⟨_, .under hf hp hl, List.suffix_refl _⟩
    · obtain ⟨l', hl', hs⟩ := ih hg
      exact ⟨l', hl', hs.trans (List.suffix_cons _ _)⟩

/-- A chain has an end, so it comes to no frame twice. -/
theorem Chain.nodup (hl : s.Chain f l) : l.Nodup := by
  induction hl with
  | root => simp
  | @under f p frame l hf hp hl ih =>
    refine List.nodup_cons.2 ⟨fun hmem => ?_, ih⟩
    obtain ⟨l', hl', hs⟩ := hl.of_mem hmem
    have heq : l' = f :: l := hl'.unique (.under hf hp hl)
    have hle := hs.length_le
    rw [heq, List.length_cons] at hle
    omega

theorem Chain.length_le (hl : s.Chain f l) : l.length ≤ s.frames.size := by
  have hsub : l ⊆ List.range s.frames.size := fun g hg => by
    obtain ⟨l', hl', -⟩ := hl.of_mem hg
    exact List.mem_range.2 hl'.lt
  simpa using (List.subperm_of_subset hl.nodup hsub).length_le

/-- Without circles the frames are well-founded upwards, as there are only so many. -/
theorem Acyclic.exists_chain (hs : s.Acyclic) (hf : f < s.frames.size) : ∃ l, s.Chain f l := by
  let above (a b : Fin s.frames.size) : Prop := Relation.TransGen s.IsParent b a
  have : IsTrans (Fin s.frames.size) above := ⟨fun _ _ _ hab hbc => hbc.trans hab⟩
  have : Std.Irrefl above := ⟨fun a => hs.irrefl a⟩
  have hwf : WellFounded above := Finite.wellFounded_of_trans_of_irrefl above
  have hall : ∀ a : Fin s.frames.size, ∃ l, s.Chain a l := by
    intro a
    induction a using hwf.induction with
    | _ a ih =>
      have ha : s.frames[a.1]? = some s.frames[a] := Array.getElem?_eq_getElem a.2
      cases hp : s.frames[a].parent with
      | none => exact ⟨_, .root ha hp⟩
      | some p =>
        have hparent : s.IsParent a p := ⟨_, ha, hp⟩
        obtain ⟨l, hl⟩ := ih ⟨p, hs.closed hparent⟩ (.single hparent)
        exact ⟨_, .under ha hp hl⟩
  exact hall ⟨f, hf⟩

/-- Only the parents matter. -/
theorem Chain.mono (hl : s.Chain f l)
    (hst : ∀ (g : FrameId) (old : Frame), s.frames[g]? = some old →
      ∃ new : Frame, t.frames[g]? = some new ∧ new.parent = old.parent) : t.Chain f l := by
  induction hl with
  | root hf hp =>
    obtain ⟨new, hnew, hparent⟩ := hst _ _ hf
    exact .root hnew (hparent.trans hp)
  | under hf hp _ ih =>
    obtain ⟨new, hnew, hparent⟩ := hst _ _ hf
    exact .under hnew (hparent.trans hp) ih

/-- Where every frame has a chain there are no circles, since chains become shorter upwards. -/
theorem acyclic_of_chains (hs : ∀ f, f < s.frames.size → ∃ l, s.Chain f l) : s.Acyclic := by
  have hlt {f p : FrameId} (hp : s.IsParent f p) : f < s.frames.size := by
    obtain ⟨frame, hf, -⟩ := hp
    exact (Array.getElem?_eq_some_iff.1 hf).1
  constructor
  · intro f p hp
    obtain ⟨l, hl⟩ := hs f (hlt hp)
    obtain ⟨l', hl', -⟩ := hl.parent hp
    exact hl'.lt
  · intro f hcycle
    obtain ⟨p, hp, -⟩ := Relation.TransGen.head'_iff.1 hcycle
    obtain ⟨l, hl⟩ := hs f (hlt hp)
    have hshort : ∀ g, Relation.TransGen s.IsParent f g →
        ∃ l', s.Chain g l' ∧ l'.length < l.length := by
      intro g hg
      induction hg with
      | single hp =>
        obtain ⟨l', hl', heq⟩ := hl.parent hp
        exact ⟨l', hl', by simp [heq]⟩
      | tail _ hp ih =>
        obtain ⟨l₁, hl₁, hlen⟩ := ih
        obtain ⟨l', hl', heq⟩ := hl₁.parent hp
        exact ⟨l', hl', by simp [heq] at hlen; omega⟩
    obtain ⟨l', hl', hlen⟩ := hshort f hcycle
    rw [hl.unique hl'] at hlen
    exact Nat.lt_irrefl _ hlen

/-! ## Names along a chain -/

/-- A name is looked up along the chain. -/
theorem Chain.findFrom_eq (hl : s.Chain f l) (hn : l.length ≤ n) :
    s.findFrom x n f = l.findSome? fun g => (s.slot? g x).map (g, ·) := by
  induction hl generalizing n with
  | root hf hp =>
    obtain ⟨n, rfl⟩ : ∃ k, n = k + 1 := ⟨n - 1, by simp at hn; omega⟩
    simp only [findFrom, hf, hp, slot?, Option.bind_eq_bind, Option.bind_some, Option.bind_none,
      List.findSome?_cons, List.findSome?_nil]
    split <;> simp [*]
  | under hf hp _ ih =>
    simp only [List.length_cons] at hn
    obtain ⟨n, rfl⟩ : ∃ k, n = k + 1 := ⟨n - 1, by omega⟩
    simp only [findFrom, hf, hp, slot?, Option.bind_eq_bind, Option.bind_some,
      List.findSome?_cons]
    rw [ih (by omega)]
    split <;> simp [*, slot?]

theorem findSome?_congr {F G : FrameId → Option (FrameId × Value)} (h : ∀ g ∈ l, G g = F g) :
    l.findSome? G = l.findSome? F := by
  induction l with
  | nil => rfl
  | cons g l ih =>
    obtain ⟨hg, hl⟩ := List.forall_mem_cons.1 h
    rw [List.findSome?_cons, List.findSome?_cons, hg, ih hl]

theorem Chain.find?_eq (hl : s.Chain f l) :
    s.find? f x = l.findSome? fun g => (s.slot? g x).map (g, ·) :=
  hl.findFrom_eq hl.length_le

theorem find?_eq_none (hf : s.frames.size ≤ f) : s.find? f x = none := by
  unfold find?
  cases s.frames.size with
  | zero => rfl
  | succ n => simp [findFrom, hf]

/-- A frame comes first on its own chain. -/
theorem find?_own {v : Value} (hf : s.frames[f]? = some frame) (hx : frame.slots.get? x = some v) :
    s.find? f x = some (f, v) := by
  have hlt : f < s.frames.size := (Array.getElem?_eq_some_iff.1 hf).1
  obtain ⟨n, hn⟩ := Nat.exists_eq_add_one_of_ne_zero (Nat.ne_zero_of_lt hlt)
  simp only [find?, hn, findFrom, hf, hx, Option.bind_eq_bind, Option.bind_some]

/-! ## Changes -/

theorem slot?_define (hf : f < s.frames.size) (g : FrameId) (x y : String) (v : Value) :
    (s.define f x v).slot? g y = if g = f ∧ y = x then some v else s.slot? g y := by
  simp only [slot?, define, Array.getElem?_modify]
  by_cases hg : f = g
  · subst hg
    simp only [if_true, Array.getElem?_eq_getElem hf, Option.map_some, Option.bind_some, true_and]
    by_cases hy : y = x
    · rw [if_pos hy, hy, Slots.get?_insert_self]
    · rw [if_neg hy, Slots.get?_insert_other _ _ hy]
  · have hne : ¬(g = f ∧ y = x) := fun h => hg h.1.symm
    rw [if_neg hg, if_neg hne]

theorem Chain.define (hl : s.Chain g l) (f : FrameId) (x : String) (v : Value) :
    (s.define f x v).Chain g l := by
  refine hl.mono fun h old hold => ?_
  simp only [Store.define, Array.getElem?_modify, hold]
  split
  · exact ⟨_, rfl, rfl⟩
  · exact ⟨_, rfl, rfl⟩

/-- All frames of `s` are in `t` as they were. -/
def Keeps (s t : Store) : Prop :=
  ∀ (g : FrameId) (frame : Frame), s.frames[g]? = some frame → t.frames[g]? = some frame

theorem Keeps.refl (s : Store) : s.Keeps s := fun _ _ h => h

theorem Keeps.trans {r : Store} (hrs : r.Keeps s) (hst : s.Keeps t) : r.Keeps t :=
  fun g frame h => hst g frame (hrs g frame h)

theorem keeps_newFrame (s : Store) (p : Option FrameId) (ss : Slots) :
    s.Keeps (s.newFrame p ss).2 := by
  intro g frame hg
  have hne : g ≠ s.frames.size := Nat.ne_of_lt (Array.getElem?_eq_some_iff.1 hg).1
  simp [newFrame, Array.getElem?_push, hne, hg]

/-- A definition in a frame that is none of them. -/
theorem Keeps.define (hst : s.Keeps t) (hf : s.frames.size ≤ f) (x : String) (v : Value) :
    s.Keeps (t.define f x v) := by
  intro g frame hg
  have hne : f ≠ g := fun heq =>
    Nat.not_lt.2 (heq ▸ hf) (Array.getElem?_eq_some_iff.1 hg).1
  rw [Store.define, Array.getElem?_modify, if_neg hne]
  exact hst g frame hg

theorem Chain.keeps (hl : s.Chain f l) (hst : s.Keeps t) : t.Chain f l :=
  hl.mono fun g old hold => ⟨old, hst g old hold, rfl⟩

/-- Frames elsewhere make no difference. -/
theorem Chain.find?_keeps (hl : s.Chain f l) (hst : s.Keeps t) (x : String) :
    t.find? f x = s.find? f x := by
  rw [(hl.keeps hst).find?_eq, hl.find?_eq]
  refine findSome?_congr fun g hg => ?_
  obtain ⟨l', hl', -⟩ := hl.of_mem hg
  have hlt : g < s.frames.size := hl'.lt
  have hframe : s.frames[g]? = some s.frames[g] := Array.getElem?_eq_getElem hlt
  simp only [slot?, hframe, hst g _ hframe]

/-- In a frame without a parent there are only its own names. -/
theorem find?_root (hf : s.frames[f]? = some frame) (hp : frame.parent = none) (x : String) :
    s.find? f x = (frame.slots.get? x).map (f, ·) := by
  rw [(Chain.root hf hp).find?_eq, List.findSome?_cons, slot?, hf, Option.bind_some]
  cases frame.slots.get? x <;> rfl

/-- A name that the frame itself does not hold is what it is in the parent. -/
theorem Chain.find?_under (hl : s.Chain p l) (hf : s.frames[f]? = some frame)
    (hp : frame.parent = some p) (x : String) :
    s.find? f x = ((frame.slots.get? x).map (f, ·)).or (s.find? p x) := by
  rw [(Chain.under hf hp hl).find?_eq, List.findSome?_cons, slot?, hf, Option.bind_some,
    hl.find?_eq]
  cases frame.slots.get? x <;> rfl

/-- What is seen from a new frame: its own names, and then what its parent sees. -/
theorem Chain.find?_newFrame (hl : s.Chain p l) (ss : Slots) (x : String) :
    (s.newFrame (some p) ss).2.find? s.frames.size x =
      ((ss.get? x).map (s.frames.size, ·)).or (s.find? p x) := by
  have hkeeps := s.keeps_newFrame (some p) ss
  have hself : (s.newFrame (some p) ss).2.frames[s.frames.size]? = some ⟨some p, ss⟩ :=
    Array.getElem?_push_size
  rw [(hl.keeps hkeeps).find?_under hself rfl, hl.find?_keeps hkeeps]

theorem Chain.get?_newFrame (hl : s.Chain p l) (ss : Slots) (x : String) :
    (s.newFrame (some p) ss).2.get? s.frames.size x = (ss.get? x).or (s.get? p x) := by
  rw [get?, get?, hl.find?_newFrame]
  cases ss.get? x <;> rfl

theorem Chain.resolve?_newFrame {ss : Slots} (hl : s.Chain p l) (hx : ss.get? x = none) :
    (s.newFrame (some p) ss).2.resolve? s.frames.size x = s.resolve? p x := by
  rw [resolve?, resolve?, hl.find?_newFrame, hx]
  rfl

theorem Chain.get?_under (hl : s.Chain p l) (hf : s.frames[f]? = some frame)
    (hp : frame.parent = some p) (x : String) :
    s.get? f x = (frame.slots.get? x).or (s.get? p x) := by
  rw [get?, get?, hl.find?_under hf hp]
  cases frame.slots.get? x <;> rfl

theorem get?_root (hf : s.frames[f]? = some frame) (hp : frame.parent = none) (x : String) :
    s.get? f x = frame.slots.get? x := by
  rw [get?, find?_root hf hp]
  cases frame.slots.get? x <;> rfl

end Store

end MonkeyLang
