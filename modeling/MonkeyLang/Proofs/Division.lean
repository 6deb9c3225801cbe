/-
Division rounds down. The machine's quotient rounds toward zero, so it is one too
large just where there is a remainder and the signs differ; taking one off gives
the floor. The floor of the least integer by -1 is the only one beyond 64 bits.
The correction cannot leave them: with a remainder the divisor is at least 2 in
size, which keeps the quotient away from the end.
-/
import Mathlib.Algebra.Order.Field.Basic
import Mathlib.Data.Rat.Floor
import Mathlib.Order.Bounds.Basic
import MonkeyLang.Value.Operator

namespace MonkeyLang

/-! ## Quotients of integers without bounds -/

/-- `q` is not above `l / r`, told by multiplication. -/
def NotAbove (l r q : Int) : Prop := if 0 < r then q * r ≤ l else l ≤ q * r

/-- There is a remainder and the signs differ. -/
def Misrounds (l r : Int) : Prop := l.tmod r ≠ 0 ∧ (l < 0) ≠ (r < 0)

section

variable {l r q : Int}

theorem notAbove_iff (hr : r ≠ 0) : NotAbove l r q ↔ q ≤ ⌊(l : ℚ) / r⌋ := by
  rw [Int.le_floor, NotAbove]
  split
  · rename_i hpos
    rw [le_div_iff₀ (Int.cast_pos.2 hpos)]
    exact_mod_cast Iff.rfl
  · have hneg : r < 0 := by omega
    rw [le_div_iff_of_neg (Int.cast_lt_zero.2 hneg)]
    exact_mod_cast Iff.rfl

theorem isGreatest_floor (hr : r ≠ 0) : IsGreatest {q | NotAbove l r q} ⌊(l : ℚ) / r⌋ :=
  ⟨(notAbove_iff hr).2 le_rfl, fun _ hq => (notAbove_iff hr).1 hq⟩

theorem fdiv_eq_floor (l r : Int) : l.fdiv r = ⌊(l : ℚ) / r⌋ := by
  have hnonneg (l : Int) (n : Nat) : l.fdiv n = ⌊(l : ℚ) / n⌋ := by
    rw [Int.fdiv_eq_ediv_of_nonneg l (Int.natCast_nonneg n), Rat.floor_intCast_div_natCast]
  rcases Int.eq_nat_or_neg r with ⟨n, rfl | rfl⟩
  · exact hnonneg l n
  · rw [← Int.neg_fdiv_neg, Int.neg_neg, hnonneg]
    push_cast
    rw [neg_div, div_neg]

/-- There the quotient that rounds toward zero is one too large. -/
theorem fdiv_of_misrounds (hr : r ≠ 0) (h : Misrounds l r) : l.fdiv r = l.tdiv r - 1 := by
  obtain ⟨hrem, hsign⟩ := h
  have hdvd : ¬r ∣ l := mt Int.tmod_eq_zero_of_dvd hrem
  rw [Int.fdiv_eq_tdiv, if_neg hdvd]
  rcases Int.lt_or_gt_of_ne hr with hneg | hpos
  · have hl : 0 ≤ l := Int.not_lt.1 fun hl => hsign (propext (iff_of_true hl hneg))
    rw [if_pos hl, if_neg (Int.not_le.2 hneg)]
  · have hr' : ¬r < 0 := Int.lt_asymm hpos
    have hl : l < 0 := Decidable.not_not.1 fun hl => hsign (propext (iff_of_false hl hr'))
    rw [if_neg (Int.not_le.2 hl), if_pos (Int.le_of_lt hpos), Int.sign_eq_one_of_pos hpos]

/-- Elsewhere it is right. -/
theorem fdiv_of_not_misrounds (hr : r ≠ 0) (h : ¬Misrounds l r) : l.fdiv r = l.tdiv r := by
  rw [Int.fdiv_eq_tdiv]
  by_cases hdvd : r ∣ l
  · rw [if_pos hdvd, Int.sub_zero]
  -- With a remainder the signs agree, so the exact quotient is positive and both round alike.
  · have hrem : l.tmod r ≠ 0 := mt Int.dvd_of_tmod_eq_zero hdvd
    have hsign : (l < 0) = (r < 0) := Decidable.not_not.1 fun hne => h ⟨hrem, hne⟩
    rw [if_neg hdvd]
    rcases Int.lt_or_gt_of_ne hr with hneg | hpos
    · have hl : l < 0 := hsign.mpr hneg
      rw [if_neg (Int.not_le.2 hl), if_neg (Int.not_le.2 hneg), Int.sign_eq_neg_one_of_neg hneg]
      exact Int.sub_zero _
    · have hl : ¬l < 0 := hsign ▸ Int.lt_asymm hpos
      rw [if_pos (Int.not_lt.1 hl), if_pos (Int.le_of_lt hpos), Int.sub_zero]

/-- Neither 1 nor -1 leaves a remainder, so the quotient has at most half the size. -/
theorem Misrounds.two_mul_natAbs_le (h : Misrounds l r) : 2 * (l.tdiv r).natAbs ≤ l.natAbs := by
  have hone : r.natAbs ≠ 1 := by
    intro hr
    have hdvd : r ∣ l := Int.natAbs_dvd.1 (by simp [hr])
    exact h.1 (Int.tmod_eq_zero_of_dvd hdvd)
  have hhalf : l.natAbs / r.natAbs ≤ l.natAbs / 2 := by
    rcases Nat.eq_zero_or_pos r.natAbs with hzero | hpos
    · simp [hzero]
    · exact Nat.div_le_div_left (by omega) Nat.two_pos
  have hsize : (l.tdiv r).natAbs = l.natAbs / r.natAbs := Int.natAbs_tdiv l r
  omega

end

/-! ## Quotients of 64 bits -/

/-- The quotient rounded down on a machine that gives up if a subtraction leaves the 64 bits. -/
def floorDivChecked? (l r : Int64) : Option (Option Int64) :=
  if r = 0 then some none
  else
    let quotient := l / r
    if l % r ≠ 0 ∧ (l < 0) ≠ (r < 0) then
      if quotient.toBitVec.ssubOverflow 1 then none else some (some (quotient - 1))
    else some (some quotient)

section

variable {l r : Int64}

theorem misrounds_iff :
    l % r ≠ 0 ∧ (l < 0) ≠ (r < 0) ↔ Misrounds l.toInt r.toInt := by
  simp only [Misrounds, ne_eq, ← Int64.toInt_inj, Int64.toInt_mod, Int64.toInt_zero,
    Int64.lt_iff_toInt_lt]

theorem toInt_ne_zero (hr : r ≠ 0) : r.toInt ≠ 0 := fun hzero => hr (Int64.toInt_inj.1 hzero)

theorem toInt_div (h : ¬(l = Int64.minValue ∧ r = -1)) :
    (l / r).toInt = l.toInt.tdiv r.toInt := by
  rcases not_and_or.1 h with hl | hr
  · exact Int64.toInt_div_of_ne_left l r hl
  · exact Int64.toInt_div_of_ne_right l r hr

theorem Misrounds.not_least (h : Misrounds l.toInt r.toInt) : ¬(l = Int64.minValue ∧ r = -1) := by
  rintro ⟨rfl, rfl⟩
  exact h.1 (by decide)

/-- The quotient before its correction is not the least integer. -/
theorem Misrounds.neg_lt (h : Misrounds l.toInt r.toInt) : -2 ^ 63 < (l / r).toInt := by
  have hsize := h.two_mul_natAbs_le
  have hle := l.le_toInt
  have hlt := l.toInt_lt
  rw [toInt_div h.not_least]
  omega

/-- The correction stays within 64 bits. -/
theorem Misrounds.not_overflows (h : Misrounds l.toInt r.toInt) :
    (l / r).toBitVec.ssubOverflow 1 = false := by
  have hgt : -2 ^ 63 < (l / r).toBitVec.toInt := h.neg_lt
  have hlt : (l / r).toBitVec.toInt < 2 ^ 63 := (l / r).toInt_lt
  have hone : (1 : BitVec 64).toInt = 1 := rfl
  rw [BitVec.ssubOverflow, hone, Bool.or_eq_false_iff, decide_eq_false_iff_not,
    decide_eq_false_iff_not]
  omega

theorem Misrounds.toInt_sub_one (h : Misrounds l.toInt r.toInt) :
    (l / r - 1).toInt = (l / r).toInt - 1 :=
  BitVec.toInt_sub_of_not_ssubOverflow (Bool.eq_false_iff.1 h.not_overflows)

theorem floorDiv?_eq_none_iff : floorDiv? l r = none ↔ r = 0 := by
  unfold floorDiv?
  split
  · simp [*]
  · split <;> simp [*]

/-- The quotient is the floor wherever that has 64 bits. -/
theorem floorDiv?_eq_fdiv (hr : r ≠ 0) (h : ¬(l = Int64.minValue ∧ r = -1)) :
    ∃ q, floorDiv? l r = some q ∧ q.toInt = l.toInt.fdiv r.toInt := by
  simp only [floorDiv?, if_neg hr]
  by_cases hm : Misrounds l.toInt r.toInt
  · refine ⟨_, if_pos (misrounds_iff.2 hm), ?_⟩
    rw [hm.toInt_sub_one, toInt_div h, fdiv_of_misrounds (toInt_ne_zero hr) hm]
  · refine ⟨_, if_neg (mt misrounds_iff.1 hm), ?_⟩
    rw [toInt_div h, fdiv_of_not_misrounds (toInt_ne_zero hr) hm]

theorem floorDivChecked?_eq (l r : Int64) : floorDivChecked? l r = some (floorDiv? l r) := by
  unfold floorDivChecked? floorDiv?
  split
  · rfl
  · split
    · rename_i hm
      exact if_neg (Bool.eq_false_iff.1 (misrounds_iff.1 hm).not_overflows)
    · rfl

end

/-- Division has a result unless the divisor is zero, and the result is the greatest integer that is
not above the exact quotient, which is its floor. Only for the least integer and -1 does the floor
not fit into 64 bits; the result is then the least integer again. No step of it overflows. -/
theorem floorDiv?_floor (l r : Int64) :
    (floorDiv? l r = none ↔ r = 0) ∧
    (r ≠ 0 → ∃ q, floorDiv? l r = some q ∧
      if l = Int64.minValue ∧ r = -1 then
        q = Int64.minValue ∧ Int64.maxValue.toInt < ⌊(l.toInt : ℚ) / r.toInt⌋
      else
        IsGreatest {k | NotAbove l.toInt r.toInt k} q.toInt ∧
          q.toInt = ⌊(l.toInt : ℚ) / r.toInt⌋) ∧
    floorDivChecked? l r = some (floorDiv? l r) := by
  refine ⟨floorDiv?_eq_none_iff, fun hr => ?_, floorDivChecked?_eq l r⟩
  by_cases hleast : l = Int64.minValue ∧ r = -1
  · simp only [if_pos hleast]
    obtain ⟨rfl, rfl⟩ := hleast
    refine ⟨Int64.minValue, rfl, rfl, ?_⟩
    rw [← fdiv_eq_floor]
    decide
  · simp only [if_neg hleast]
    obtain ⟨q, hq, heq⟩ := floorDiv?_eq_fdiv hr hleast
    rw [fdiv_eq_floor] at heq
    refine ⟨q, hq, ?_, heq⟩
    rw [heq]
    exact isGreatest_floor (toInt_ne_zero hr)

/-- Both signs of the divisor, with a remainder; and the one floor that does not fit. -/
theorem floorDiv?_floor_signs :
    IsGreatest {k | NotAbove (-7) 2 k} (-4) ∧ IsGreatest {k | NotAbove 7 (-2) k} (-4) ∧
      floorDiv? Int64.minValue (-1) = some Int64.minValue := by
  obtain ⟨q₁, h₁, hq₁⟩ := (floorDiv?_floor (-7) 2).2.1 (by decide)
  obtain ⟨q₂, h₂, hq₂⟩ := (floorDiv?_floor 7 (-2)).2.1 (by decide)
  obtain ⟨q₃, h₃, hq₃⟩ := (floorDiv?_floor Int64.minValue (-1)).2.1 (by decide)
  obtain rfl : -4 = q₁ := Option.some.inj h₁
  obtain rfl : -4 = q₂ := Option.some.inj h₂
  obtain rfl : q₃ = Int64.minValue := hq₃.1
  exact ⟨hq₁.1, hq₂.1, h₃⟩

end MonkeyLang
