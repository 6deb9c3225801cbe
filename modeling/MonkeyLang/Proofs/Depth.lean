/-
The number of calls that are going on. The world counts them, and the stack
shows them: the count goes along with the stack, so every part of a run leaves
it as it was. A limit changes a run only at the first call that exceeds it,
and from there on the error is all that comes.
-/
import MonkeyLang.Proofs.Faults

namespace MonkeyLang

/-- The body of a function is waited for. -/
def Pending.isCall : Pending → Bool
  | .call => true
  | _ => false

namespace Machine

/-- The bodies of functions that are going on. -/
def active (m : Machine) : Nat := m.stack.countP Pending.isCall

/-! ## What a step does to the number of calls -/

/-- The machine goes on over the stack `k` without another call. -/
def Level (k : List Pending) (w : World) (m : Machine) : Prop :=
  m.active = k.countP Pending.isCall ∧ m.world.depth = w.depth

section

variable {f : FrameId} {k : List Pending} {w : World}

theorem level_pass (name : String) (after : List Value) (body : Block) (result : Value) :
    Level k w (forPass name after body f result k w) := by
  cases after <;> exact ⟨rfl, rfl⟩

theorem level_evaluate (e : Expr) : Level k w (evaluate e f k w) := by
  cases e with
  | ident x =>
    simp only [evaluate]
    split
    · exact ⟨rfl, rfl⟩
    · split <;> exact ⟨rfl, rfl⟩
  | array es => cases es <;> exact ⟨rfl, rfl⟩
  | hash es => cases es <;> exact ⟨rfl, rfl⟩
  | _ => exact ⟨rfl, rfl⟩

theorem level_builtin (limit : Option Nat) (b : Builtin) (arguments : List Value) :
    Level k w (call limit (.builtin b) arguments k w) := by
  cases b <;> simp only [Level, call, Builtin.call] <;> (repeat' split) <;> exact ⟨rfl, rfl⟩

theorem level_resume (result : Option Value) {p : Pending} (hp : p.isCall = false) :
    Level k w (resume result p k w) := by
  cases p with
  | more b f => cases b <;> exact ⟨rfl, rfl⟩
  | item before after f => cases after <;> exact ⟨rfl, rfl⟩
  | entryKey before value after f =>
    simp only [resume]
    split <;> exact ⟨rfl, rfl⟩
  | entryValue before key after f => cases after <;> exact ⟨rfl, rfl⟩
  | choose b d f =>
    simp only [resume]
    split
    · exact ⟨rfl, rfl⟩
    · split <;> exact ⟨rfl, rfl⟩
  | iterate name body f =>
    simp only [resume]
    split
    · exact level_pass name _ body .null
    · exact ⟨rfl, rfl⟩
  | forPass name after body f before => exact level_pass name after body _
  | test c body f before =>
    simp only [resume]
    split <;> exact ⟨rfl, rfl⟩
  | callee args f => cases args <;> exact ⟨rfl, rfl⟩
  | argument callee before after f => cases after <;> exact ⟨rfl, rfl⟩
  | call => cases hp
  | _ => exact ⟨rfl, rfl⟩

theorem level_unwind (s : Signal) {p : Pending} (hp : p.isCall = false) :
    Level k w (unwind s p k w) := by
  cases p with
  | forPass name after body f before =>
    cases s with
    | cont => exact level_pass name after body before
    | _ => exact ⟨rfl, rfl⟩
  | whilePass c body f before => cases s <;> exact ⟨rfl, rfl⟩
  | call => cases hp
  | _ => exact ⟨rfl, rfl⟩

end

/-- One step begins the body of a function, ends one, or does neither. -/
inductive Counts (limit : Option Nat) (m : Machine) : Prop
  | begins {c : Closure} {arguments : List Value} :
      m.control = .apply (.function c) arguments →
      c.parameters.length ≤ arguments.length →
      limit.filter (· ≤ m.world.depth) = none →
      (m.step limit).active = m.active + 1 →
      (m.step limit).world.depth = m.world.depth + 1 → Counts limit m
  | ends : m.active = (m.step limit).active + 1 →
      (m.step limit).world.depth = m.world.depth - 1 → Counts limit m
  | neither : Level m.stack m.world (m.step limit) → Counts limit m

theorem counts_apply {limit : Option Nat} (callee : Value) (arguments : List Value)
    (k : List Pending) (w : World) : Counts limit ⟨.apply callee arguments, k, w⟩ := by
  cases callee with
  | function c =>
    by_cases hlen : arguments.length < c.parameters.length
    · exact .neither (by simp only [step, call, if_pos hlen]; exact ⟨rfl, rfl⟩)
    · cases hl : limit.filter (· ≤ w.depth) with
      | some n => exact .neither (by simp only [step, call, if_neg hlen, hl]; exact ⟨rfl, rfl⟩)
      | none =>
        refine .begins rfl (Nat.not_lt.1 hlen) hl ?_ ?_
        · simp only [step, call, if_neg hlen, hl]
          exact List.countP_cons_of_pos rfl
        · simp only [step, call, if_neg hlen, hl]
          rfl
  | builtin b => exact .neither (level_builtin limit b arguments)
  | _ => exact .neither ⟨rfl, rfl⟩

theorem counts (limit : Option Nat) (m : Machine) : Counts limit m := by
  obtain ⟨c, k, w⟩ := m
  cases c with
  | expr e f => exact .neither (level_evaluate e)
  | stmt s f => cases s <;> exact .neither ⟨rfl, rfl⟩
  | block b f => cases b <;> exact .neither ⟨rfl, rfl⟩
  | apply callee arguments => exact counts_apply callee arguments k w
  | done result =>
    cases k with
    | nil => exact .neither ⟨rfl, rfl⟩
    | cons p k =>
      cases hp : p.isCall with
      | false =>
        have hl := level_resume (k := k) (w := w) result hp
        refine .neither ⟨hl.1.trans ?_, hl.2⟩
        exact (List.countP_cons_of_neg (by simp [hp])).symm
      | true =>
        cases p <;> cases hp
        exact .ends (List.countP_cons_of_pos rfl) rfl
  | raised s =>
    cases k with
    | nil => exact .neither ⟨rfl, rfl⟩
    | cons p k =>
      cases hp : p.isCall with
      | false =>
        have hl := level_unwind (k := k) (w := w) s hp
        refine .neither ⟨hl.1.trans ?_, hl.2⟩
        exact (List.countP_cons_of_neg (by simp [hp])).symm
      | true =>
        cases p <;> cases hp
        cases s <;> exact .ends (List.countP_cons_of_pos rfl) rfl

theorem active_step_le (limit : Option Nat) (m : Machine) :
    (m.step limit).active ≤ m.active + 1 := by
  cases counts limit m with
  | begins _ _ _ ha _ => omega
  | ends ha _ => omega
  | neither hl =>
    have ha : (m.step limit).active = m.active := hl.1
    omega

/-! ## The count goes along with the stack -/

/-- The world counts `d` calls more than the stack shows. -/
def Balanced (d : Nat) (m : Machine) : Prop := m.world.depth = d + m.active

theorem Balanced.step {d : Nat} {m : Machine} (limit : Option Nat) (h : m.Balanced d) :
    (m.step limit).Balanced d := by
  unfold Balanced at h ⊢
  cases counts limit m with
  | begins _ _ _ ha hd => omega
  | ends ha hd => omega
  | neither hl =>
    have ha : (m.step limit).active = m.active := hl.1
    rw [hl.2, ha, h]

theorem Balanced.after {d : Nat} {m : Machine} (limit : Option Nat) (h : m.Balanced d) (n : Nat) :
    (m.after limit n).Balanced d := by
  induction n generalizing m with
  | zero => exact h
  | succ n ih => exact ih (h.step limit)

/-- Every part of a run leaves the count as it was, whatever its outcome. -/
theorem depth_of_run {limit : Option Nat} {n : Nat} {c : Control} {w w' : World} {o : Outcome}
    (h : Machine.run limit n ⟨c, [], w⟩ = some (o, w')) : w'.depth = w.depth := by
  have hb : Balanced w.depth ⟨c, [], w⟩ := rfl
  have ha := hb.after limit n
  rw [run_eq_some.1 h] at ha
  exact ha

/-! ## The limit -/

section

variable {L : Nat} {m : Machine}

/-- Where no limit is, one that allows one more call makes no difference, and neither does one
that no call comes up against. -/
theorem step_some_eq (h : m.world.depth < L ∨ (m.step none).active ≤ m.active) :
    m.step (some L) = m.step none := by
  obtain ⟨c, k, w⟩ := m
  cases c with
  | apply callee arguments =>
    cases callee with
    | function c =>
      simp only [step, call]
      by_cases hlen : arguments.length < c.parameters.length
      · simp only [if_pos hlen]
      · obtain h | h := h
        · simp only [if_neg hlen, Option.filter_some, decide_eq_true_eq, if_neg (Nat.not_le.2 h),
            Option.filter_none]
        · have ha : (step none ⟨.apply (.function c) arguments, k, w⟩).active =
              active ⟨.apply (.function c) arguments, k, w⟩ + 1 := by
            simp only [step, call, if_neg hlen, Option.filter_none]
            exact List.countP_cons_of_pos rfl
          omega
    | _ => rfl
  | done result => cases k <;> rfl
  | raised s => cases k <;> rfl
  | _ => rfl

/-- A call beyond the limit is an error. -/
theorem step_some_deep (hd : L ≤ m.world.depth) (ha : m.active < (m.step none).active) :
    m.step (some L) = ⟨.raised (.fault (.tooDeep L)), m.stack, m.world⟩ := by
  obtain ⟨c, k, w⟩ := m
  cases counts none ⟨c, k, w⟩ with
  | begins hc hlen _ _ _ =>
    simp only at hc
    simp only [hc, step, call, if_neg (Nat.not_lt.2 hlen), Option.filter_some,
      decide_eq_true_eq, if_pos hd]
    rfl
  | ends he _ => omega
  | neither hl =>
    have he : (step none ⟨c, k, w⟩).active = active ⟨c, k, w⟩ := hl.1
    omega

/-- As long as no more than `L` calls are going on, the limit `L` is not noticed. -/
theorem after_some_eq {n : Nat} (hb : m.Balanced 0)
    (h : ∀ i, i ≤ n → (m.after none i).active ≤ L) : m.after (some L) n = m.after none n := by
  induction n with
  | zero => rfl
  | succ n ih =>
    rw [after_succ, after_succ, ih fun i hi => h i (Nat.le_succ_of_le hi)]
    apply step_some_eq
    have hd : (m.after none n).world.depth = 0 + (m.after none n).active := hb.after none n
    have hn := h n (Nat.le_succ n)
    have hs := h (n + 1) (Nat.le_refl _)
    rw [after_succ] at hs
    omega

/-- The most calls that are going on at once during `n` steps. -/
def peak (limit : Option Nat) : Nat → Machine → Nat
  | 0, m => m.active
  | n + 1, m => max m.active (peak limit n (m.step limit))

theorem active_le_peak {limit : Option Nat} {i n : Nat} (h : i ≤ n) :
    (m.after limit i).active ≤ m.peak limit n := by
  induction n generalizing m i with
  | zero =>
    obtain rfl := Nat.le_zero.1 h
    exact Nat.le_refl _
  | succ n ih =>
    cases i with
    | zero => exact Nat.le_max_left _ _
    | succ i =>
      have hi : ((m.step limit).after limit i).active ≤ (m.step limit).peak limit n :=
        ih (Nat.le_of_succ_le_succ h)
      exact Nat.le_trans hi (Nat.le_max_right _ _)

/-- A run that exceeds `L` calls has one first moment when it is about to. -/
theorem exists_first_over {n : Nat} (hm : m.active ≤ L) (h : L < m.peak none n) :
    ∃ j, j < n ∧ (∀ i, i ≤ j → (m.after none i).active ≤ L) ∧
      (m.after none (j + 1)).active = L + 1 := by
  induction n generalizing m with
  | zero => exact absurd h (Nat.not_lt.2 hm)
  | succ n ih =>
    have h : L < (m.step none).peak none n := by
      simp only [peak] at h
      omega
    by_cases hs : (m.step none).active ≤ L
    · obtain ⟨j, hj, hle, ha⟩ := ih hs h
      refine ⟨j + 1, Nat.succ_lt_succ hj, fun i hi => ?_, ha⟩
      cases i with
      | zero => exact hm
      | succ i => exact hle i (Nat.le_of_succ_le_succ hi)
    · refine ⟨0, Nat.succ_pos n, fun i hi => ?_, ?_⟩
      · obtain rfl := Nat.le_zero.1 hi
        exact hm
      · have hle := active_step_le none m
        show (m.step none).active = L + 1
        omega

/-- From the first moment with one call too many, the limited run has only the error to bring to
an end. -/
theorem run_tooDeep {j : Nat} (hb : m.Balanced 0)
    (hle : ∀ i, i ≤ j → (m.after none i).active ≤ L)
    (hover : (m.after none (j + 1)).active = L + 1) :
    ∃ k d, m.run (some L) k =
      some (.error (.fault (.tooDeep L)), { (m.after none j).world with depth := d }) := by
  have hfull := hle j (Nat.le_refl j)
  have hd : (m.after none j).world.depth = 0 + (m.after none j).active := hb.after none j
  rw [after_succ] at hover
  have hle' := active_step_le none (m.after none j)
  have hs : m.after (some L) (j + 1) =
      ⟨.raised (.fault (.tooDeep L)), (m.after none j).stack, (m.after none j).world⟩ := by
    rw [after_succ, after_some_eq hb hle]
    exact step_some_deep (by omega) (by omega)
  obtain ⟨d, hr⟩ := @run_fault (some L) (.tooDeep L) (m.after none j).stack (m.after none j).world
  refine ⟨j + 1 + (m.after none j).stack.length, d, ?_⟩
  rw [run_eq_some] at hr ⊢
  rw [after_add, hs, hr]

end

end Machine

/-- A limit of `L` calls at once refines the run without a limit. Where that has at most `L`, the
two are the same; where it has more, the limited run ends with an error in the world in which the
first call too many would have begun. Every part of any run leaves the count of calls as it was. -/
theorem Program.run_limit (L : Nat) {p : Program} {f : FrameId} {w w' : World} {n : Nat} {v : Value}
    (hw : w.depth = 0) (h : p.run none n f w = some (v, w')) :
    let m := Machine.load p f w
    (m.peak none n ≤ L → p.run (some L) n f w = some (v, w')) ∧
    (L < m.peak none n → ∃ j, j < n ∧ (∀ i, i ≤ j → (m.after none i).active ≤ L) ∧
      (m.after none (j + 1)).active = L + 1 ∧
      ∃ k, p.run (some L) k f w =
        some (.signal (.fault (.tooDeep L)), { (m.after none j).world with depth := 0 })) ∧
    ∀ limit n c w o w', Machine.run limit n ⟨c, [], w⟩ = some (o, w') → w'.depth = w.depth := by
  intro m
  have hb : m.Balanced 0 := by
    rw [Machine.Balanced, show m.world.depth = 0 from hw]
    rfl
  refine ⟨fun hD => ?_, fun hD => ?_, fun limit n c w o w' hr => Machine.depth_of_run hr⟩
  · have ha : m.after (some L) n = m.after none n :=
      Machine.after_some_eq hb fun i hi => Nat.le_trans (Machine.active_le_peak hi) hD
    rw [Program.run, Machine.run_eq] at h ⊢
    rw [show (Machine.load p f w).after (some L) n = _ from ha]
    exact h
  · obtain ⟨j, hj, hle, hover⟩ := Machine.exists_first_over (Nat.zero_le L) hD
    obtain ⟨k, d, hr⟩ := Machine.run_tooDeep hb hle hover
    have hd : d = w.depth := Machine.depth_of_run hr
    rw [hw] at hd
    refine ⟨j, hj, hle, hover, k, ?_⟩
    rw [Program.run, show (Machine.load p f w).run (some L) k = _ from hr, hd]
    rfl

/-- A call of a function, with no other call in it. -/
def oneCall : Program := [.expr (.call (.function [] [.ret (.integer 7)]) [])]

theorem Program.run_limit_oneCall :
    let w := World.fresh fun _ => 0
    let w' := { (w.newFrame (some 0) []).2 with functions := 1 }
    oneCall.run none 20 0 w = some (.integer 7, w') ∧
      oneCall.run (some 1) 20 0 w = some (.integer 7, w') ∧
      ∃ k u, oneCall.run (some 0) k 0 w = some (.signal (.fault (.tooDeep 0)), u) := by
  intro w w'
  have h : oneCall.run none 20 0 w = some (.integer 7, w') := rfl
  have hD : (Machine.load oneCall 0 w).peak none 20 = 1 := by decide
  obtain ⟨-, hover, -⟩ := Program.run_limit 0 rfl h
  obtain ⟨hsame, -, -⟩ := Program.run_limit 1 rfl h
  obtain ⟨j, -, -, -, k, hk⟩ := hover (by rw [hD]; exact Nat.zero_lt_one)
  exact ⟨h, hsame (Nat.le_of_eq hD), k, _, hk⟩

end MonkeyLang
