/-
Arithmetic is arithmetic modulo 2 ^ 64. Minus and the operators `+`, `-` and `*`
wrap around at every step, and because taking integers to 64 bits is compatible
with all of them, a formula of any size comes to its exact value, reduced once.
Comparisons are those of the reduced values.
-/
import Mathlib.Data.Int.ModEq
import MonkeyLang.Proofs.Evaluation

namespace MonkeyLang

/-- Formulas of integer literals and names, with the operations that wrap around. -/
inductive Formula where
  | literal (n : Int64)
  | name (x : String)
  | negate (a : Formula)
  | add (a b : Formula)
  | subtract (a b : Formula)
  | multiply (a b : Formula)

namespace Formula

/-- The formula as an expression. -/
def expr : Formula → Expr
  | literal n => .integer n
  | name x => .ident x
  | negate a => .unary .negate a.expr
  | add a b => .binary a.expr .add b.expr
  | subtract a b => .binary a.expr .subtract b.expr
  | multiply a b => .binary a.expr .multiply b.expr

/-- The value over the integers without bounds, where the names stand for these. -/
def exact (ρ : String → Int64) : Formula → Int
  | literal n => n.toInt
  | name x => (ρ x).toInt
  | negate a => -a.exact ρ
  | add a b => a.exact ρ + b.exact ρ
  | subtract a b => a.exact ρ - b.exact ρ
  | multiply a b => a.exact ρ * b.exact ρ

/-- Every name in the formula is a variable that holds its integer. -/
def Bound (s : Store) (f : FrameId) (ρ : String → Int64) : Formula → Prop
  | literal _ => True
  | name x => s.get? f x = some (.integer (ρ x))
  | negate a => a.Bound s f ρ
  | add a b | subtract a b | multiply a b => a.Bound s f ρ ∧ b.Bound s f ρ

end Formula

/-- The integer of 64 bits that is congruent to `i`. -/
def IsReduced (i k : Int) : Prop := -2 ^ 63 ≤ k ∧ k ≤ 2 ^ 63 - 1 ∧ k ≡ i [ZMOD 2 ^ 64]

instance (i k : Int) : Decidable (IsReduced i k) :=
  inferInstanceAs (Decidable (-2 ^ 63 ≤ k ∧ k ≤ 2 ^ 63 - 1 ∧ k ≡ i [ZMOD 2 ^ 64]))

/-- There is just one. -/
theorem isReduced_iff {i k : Int} : IsReduced i k ↔ k = (Int64.ofInt i).toInt := by
  rw [Int64.toInt_ofInt]
  constructor
  · rintro ⟨hle, hlt, hk⟩
    have hmod : k.bmod Int64.size = i.bmod Int64.size := by
      rw [← Int.emod_bmod k, ← Int.emod_bmod i]
      exact congrArg (Int.bmod · _) hk
    have hsize : (Int64.size : Int) = 2 ^ 64 := rfl
    rw [← hmod, Int.bmod_eq_of_le hle (by omega)]
  · rintro rfl
    have hle := (Int64.ofInt i).le_toInt
    have hlt := (Int64.ofInt i).toInt_le
    rw [Int64.toInt_ofInt] at hle hlt
    exact ⟨hle, hlt, Int.bmod_emod⟩

namespace Machine

variable {limit : Option Nat} {w : World} {f : FrameId} {ρ : String → Int64} {a b : Formula}

/-- A formula comes to its exact value, taken to 64 bits. -/
theorem evaluates_formula (h : a.Bound w.store f ρ) :
    Evaluates limit a.expr f w (.integer (.ofInt (a.exact ρ))) w := by
  induction a with
  | literal n =>
    rw [Formula.exact, Int64.ofInt_toInt]
    exact evaluates_integer n
  | name x =>
    rw [Formula.exact, Int64.ofInt_toInt]
    exact evaluates_ident h id
  | negate a iha =>
    rw [Formula.exact, Int64.ofInt_neg]
    exact evaluates_unary (iha h) rfl id
  | add a b iha ihb =>
    rw [Formula.exact, Int64.ofInt_add]
    exact evaluates_binary (iha h.1) (ihb h.2) rfl id
  | subtract a b iha ihb =>
    rw [Formula.exact, Int64.ofInt_sub]
    exact evaluates_binary (iha h.1) (ihb h.2) rfl id
  | multiply a b iha ihb =>
    rw [Formula.exact, Int64.ofInt_mul]
    exact evaluates_binary (iha h.1) (ihb h.2) rfl id

/-- Two formulas are compared by what they come to. -/
theorem evaluates_comparison {op : BinaryOp} {r : Bool} (ha : a.Bound w.store f ρ)
    (hb : b.Bound w.store f ρ)
    (hop : op.onIntegers (.ofInt (a.exact ρ)) (.ofInt (b.exact ρ)) = .ok (.boolean r)) :
    Evaluates limit (.binary a.expr op b.expr) f w (.boolean r) w :=
  evaluates_binary (evaluates_formula ha) (evaluates_formula hb) hop id

/-- A formula of integers comes to the one integer of 64 bits that is congruent to its exact value
modulo 2 ^ 64, and nothing else changes. Two formulas compare as these integers do. -/
theorem formula_mod (limit : Option Nat) (ha : a.Bound w.store f ρ) (hb : b.Bound w.store f ρ) :
    (∃ n : Int64, Evaluates limit a.expr f w (.integer n) w ∧
      ∀ k, IsReduced (a.exact ρ) k ↔ k = n.toInt) ∧
    ∀ i j, IsReduced (a.exact ρ) i → IsReduced (b.exact ρ) j →
      Evaluates limit (.binary a.expr .less b.expr) f w (.boolean (i < j)) w ∧
      Evaluates limit (.binary a.expr .greater b.expr) f w (.boolean (i > j)) w ∧
      Evaluates limit (.binary a.expr .equal b.expr) f w (.boolean (i = j)) w ∧
      Evaluates limit (.binary a.expr .notEqual b.expr) f w (.boolean (i ≠ j)) w := by
  refine ⟨⟨_, evaluates_formula ha, fun k => isReduced_iff⟩, fun i j hi hj => ?_⟩
  obtain rfl := isReduced_iff.1 hi
  obtain rfl := isReduced_iff.1 hj
  refine ⟨evaluates_comparison ha hb ?_, evaluates_comparison ha hb ?_,
    evaluates_comparison ha hb ?_, evaluates_comparison ha hb ?_⟩
  · simp only [BinaryOp.onIntegers, Int64.lt_iff_toInt_lt]
  · simp only [BinaryOp.onIntegers, gt_iff_lt, Int64.lt_iff_toInt_lt]
  · simp only [BinaryOp.onIntegers, Int64.toInt_inj]
    rfl
  · simp only [BinaryOp.onIntegers, ne_eq, Int64.toInt_inj, bne, decide_not]
    rfl

/-- Minus the least integer is the least integer again, and the square of the greatest one is 1. -/
def overflowing : Formula × Formula :=
  (.negate (.add (.name "x") (.literal 1)),
    .subtract (.multiply (.name "x") (.name "x")) (.literal 2))

theorem formula_mod_overflowing :
    let w := ((Session.fresh fun _ => 0).define "x" (.integer Int64.maxValue)).world
    (∃ n : Int64, Evaluates none overflowing.1.expr 0 w (.integer n) w ∧ n.toInt = -2 ^ 63) ∧
    Evaluates none (.binary overflowing.1.expr .less overflowing.2.expr) 0 w (.boolean true) w := by
  intro w
  let ρ : String → Int64 := fun _ => Int64.maxValue
  have hx : (Formula.name "x").Bound w.store 0 ρ := rfl
  obtain ⟨⟨n, hn, hk⟩, hcompare⟩ := formula_mod none
    (show overflowing.1.Bound w.store 0 ρ from ⟨hx, trivial⟩)
    (show overflowing.2.Bound w.store 0 ρ from ⟨⟨hx, hx⟩, trivial⟩)
  have hleast : IsReduced (overflowing.1.exact ρ) (-2 ^ 63) := by decide
  have hminus : IsReduced (overflowing.2.exact ρ) (-1) := by decide
  exact ⟨⟨n, hn, ((hk _).1 hleast).symm⟩, (hcompare _ _ hleast hminus).1⟩

end Machine

end MonkeyLang
