/-
Sessions with any number of runs, one after another. What each run keeps, the
series keeps, and each run of a program keeps the laws that the program obeys.
-/
import MonkeyLang.Proofs.Law
import MonkeyLang.Session

namespace MonkeyLang.Session

variable {α β : Type}

/-- Runs one after another in the same session, and their answers. -/
def runAll (run : α → Session → Option (β × Session)) :
    List α → Session → Option (List β × Session)
  | [], s => some ([], s)
  | a :: as, s => do
    let (b, s) ← run a s
    let (bs, s) ← runAll run as s
    return (b :: bs, s)

variable {run : α → Session → Option (β × Session)} {a : α} {as : List α} {b : β} {bs : List β}
  {s s' : Session}

theorem runAll_cons (hb : run a s = some (b, s')) :
    runAll run (a :: as) s = (runAll run as s').map fun r => (b :: r.1, r.2) := by
  simp only [runAll, hb, Option.bind_eq_bind, Option.bind_some]
  cases runAll run as s' <;> rfl

theorem runAll_cons_eq_some (h : runAll run (a :: as) s = some (bs, s')) :
    ∃ b bs' t, run a s = some (b, t) ∧ runAll run as t = some (bs', s') ∧ bs = b :: bs' := by
  cases hb : run a s with
  | none => simp [runAll, hb] at h
  | some r =>
    rw [runAll_cons hb] at h
    obtain ⟨⟨bs', s''⟩, hr, he⟩ := Option.map_eq_some_iff.1 h
    cases he
    exact ⟨r.1, bs', r.2, rfl, hr, rfl⟩

/-- A property of sessions that every run keeps, together with one that it gives to its answer. -/
theorem runAll_keeps {I : Session → Prop} {P : β → Prop}
    (hrun : ∀ a ∈ as, ∀ s b t, I s → run a s = some (b, t) → I t ∧ P b) (hs : I s)
    (h : runAll run as s = some (bs, s')) : I s' ∧ ∀ b ∈ bs, P b := by
  induction as generalizing s bs with
  | nil =>
    cases h
    exact ⟨hs, List.forall_mem_nil _⟩
  | cons a as ih =>
    obtain ⟨hhead, htail⟩ := List.forall_mem_cons.1 hrun
    obtain ⟨b, bs, t, hb, hr, rfl⟩ := runAll_cons_eq_some h
    obtain ⟨ht, hP⟩ := hhead s b t hs hb
    obtain ⟨hs', hall⟩ := ih htail ht hr
    exact ⟨hs', List.forall_mem_cons.2 ⟨hP, hall⟩⟩

/-! ## Runs of programs -/

/-- The variables of the session obey the law, and the global ones may be used. -/
structure Obeys (L : Law) (s : Session) : Prop where
  world : s.world.Obeys L
  globals : L.frame s.world.size s.globals

section

variable {L : Law} {n k : Nat} {p : Program} {v : Value} {t : Session}

/-- Where new frames may be used from the beginning, a session without variables obeys the law. -/
theorem obeys_fresh (hL : L.base = 0) (draws : Nat → Nat) : (fresh draws).Obeys L := by
  have hframe : ∀ {f : FrameId} {frame : Frame},
      (fresh draws).world.store.frames[f]? = some frame → frame = ⟨none, []⟩ := by
    intro f frame hf
    exact Array.mem_singleton.1 (Array.mem_of_getElem? hf)
  refine ⟨⟨hL ▸ Nat.zero_le _, fun _ hf hp => ?_, fun _ hf hs => ?_⟩, ?_⟩
  · rw [hframe hf] at hp
    cases hp
  · rw [hframe hf] at hs
    cases hs
  · exact L.frame_succ.2 (.inr ⟨rfl, hL ▸ Nat.le_refl 0⟩)

theorem Obeys.of_run (hs : s.Obeys L) (hp : Block.Obeys L p)
    (h : s.runProgram n p = some (v, t)) :
    t.Obeys L ∧ (v.Obeys L t.world.size ∨ ∃ e, v = .signal (.fault e)) := by
  obtain ⟨⟨v', u⟩, hr, he⟩ := Option.map_eq_some_iff.1 h
  cases he
  obtain ⟨hu, hf, hv⟩ := p.obeys_of_run hs.world hp hs.globals hr
  exact ⟨⟨hu, hf⟩, hv⟩

theorem runProgram_mono {r : Value × Session} (h : s.runProgram n p = some r) (hle : n ≤ k) :
    s.runProgram k p = some r := by
  obtain ⟨⟨v, u⟩, hr, he⟩ := Option.map_eq_some_iff.1 h
  obtain ⟨⟨o, u'⟩, hm, hv⟩ := Option.map_eq_some_iff.1 hr
  rw [runProgram, Program.run, Machine.run_mono hm hle, Option.map_some, hv, Option.map_some, he]

theorem run_mono {source : String} {r : Answer × Session} (h : s.run n source = some r)
    (hle : n ≤ k) : s.run k source = some r := by
  simp only [Session.run] at h ⊢
  split at h
  · rename_i he
    obtain ⟨y, hy, rfl⟩ := Option.map_eq_some_iff.1 h
    rw [if_pos he, runProgram_mono hy hle]
    rfl
  · rename_i he
    rw [if_neg he, h]

/-- More steps change no answer of a series. -/
theorem runAll_mono {run : Nat → α → Session → Option (β × Session)}
    (hrun : ∀ a s r, run n a s = some r → run k a s = some r)
    (h : runAll (run n) as s = some (bs, s')) : runAll (run k) as s = some (bs, s') := by
  induction as generalizing s bs with
  | nil => exact h
  | cons a as ih =>
    obtain ⟨b, bs, t, hb, hr, rfl⟩ := runAll_cons_eq_some h
    rw [runAll_cons (hrun _ _ _ hb), ih hr, Option.map_some]

end

end MonkeyLang.Session
