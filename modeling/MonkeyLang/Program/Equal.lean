/-
Equality of programs is decidable: two trees are compared part by part.
-/
import MonkeyLang.Program

namespace MonkeyLang

mutual

/-- The expressions are the same tree. -/
def Expr.same : Expr → Expr → Bool
  | .ident a, .ident b => a == b
  | .integer a, .integer b => a == b
  | .boolean a, .boolean b => a == b
  | .string a, .string b => a == b
  | .array as, .array bs => Expr.sameList as bs
  | .hash as, .hash bs => Expr.sameEntries as bs
  | .unary o a, .unary p b => o == p && a.same b
  | .binary a o b, .binary c p d => o == p && a.same c && b.same d
  | .assign x a, .assign y b => x == y && a.same b
  | .ifElse a s o, .ifElse b t p => a.same b && Stmt.sameList s t && Stmt.sameElse o p
  | .forIn x a s, .forIn y b t => x == y && a.same b && Stmt.sameList s t
  | .whileDo a s, .whileDo b t => a.same b && Stmt.sameList s t
  | .function xs s, .function ys t => xs == ys && Stmt.sameList s t
  | .call a as, .call b bs => a.same b && Expr.sameList as bs
  | .index a b, .index c d => a.same c && b.same d
  | _, _ => false

def Expr.sameList : List Expr → List Expr → Bool
  | [], [] => true
  | a :: as, b :: bs => a.same b && Expr.sameList as bs
  | _, _ => false

def Expr.sameEntries : List (Expr × Expr) → List (Expr × Expr) → Bool
  | [], [] => true
  | (a, b) :: as, (c, d) :: bs => a.same c && b.same d && Expr.sameEntries as bs
  | _, _ => false

def Stmt.same : Stmt → Stmt → Bool
  | .define x a, .define y b => x == y && a.same b
  | .ret a, .ret b => a.same b
  | .expr a, .expr b => a.same b
  | .brk, .brk => true
  | .cont, .cont => true
  | _, _ => false

def Stmt.sameList : List Stmt → List Stmt → Bool
  | [], [] => true
  | a :: as, b :: bs => a.same b && Stmt.sameList as bs
  | _, _ => false

def Stmt.sameElse : Option (List Stmt) → Option (List Stmt) → Bool
  | none, none => true
  | some as, some bs => Stmt.sameList as bs
  | _, _ => false

end

mutual

theorem Expr.same_self : ∀ a : Expr, a.same a = true
  | .ident _ | .integer _ | .boolean _ | .string _ => by simp [Expr.same]
  | .array as => by simp [Expr.same, Expr.sameList_self as]
  | .hash as => by simp [Expr.same, Expr.sameEntries_self as]
  | .unary _ a | .assign _ a => by simp [Expr.same, Expr.same_self a]
  | .binary a _ b | .index a b => by simp [Expr.same, Expr.same_self a, Expr.same_self b]
  | .ifElse a s o => by
    simp [Expr.same, Expr.same_self a, Stmt.sameList_self s, Stmt.sameElse_self o]
  | .forIn _ a s | .whileDo a s => by simp [Expr.same, Expr.same_self a, Stmt.sameList_self s]
  | .function _ s => by simp [Expr.same, Stmt.sameList_self s]
  | .call a as => by simp [Expr.same, Expr.same_self a, Expr.sameList_self as]

theorem Expr.sameList_self : ∀ as : List Expr, Expr.sameList as as = true
  | [] => by simp [Expr.sameList]
  | a :: as => by simp [Expr.sameList, Expr.same_self a, Expr.sameList_self as]

theorem Expr.sameEntries_self : ∀ as : List (Expr × Expr), Expr.sameEntries as as = true
  | [] => by simp [Expr.sameEntries]
  | (a, b) :: as => by
    simp [Expr.sameEntries, Expr.same_self a, Expr.same_self b, Expr.sameEntries_self as]

theorem Stmt.same_self : ∀ a : Stmt, a.same a = true
  | .define _ a | .ret a | .expr a => by simp [Stmt.same, Expr.same_self a]
  | .brk | .cont => by simp [Stmt.same]

theorem Stmt.sameList_self : ∀ as : List Stmt, Stmt.sameList as as = true
  | [] => by simp [Stmt.sameList]
  | a :: as => by simp [Stmt.sameList, Stmt.same_self a, Stmt.sameList_self as]

theorem Stmt.sameElse_self : ∀ o : Option (List Stmt), Stmt.sameElse o o = true
  | none => by simp [Stmt.sameElse]
  | some as => by simp [Stmt.sameElse, Stmt.sameList_self as]

end

mutual

theorem Expr.eq_of_same : ∀ (a b : Expr), a.same b = true → a = b
  | .ident _, b, h | .integer _, b, h | .boolean _, b, h | .string _, b, h => by
    cases b <;> simp_all [Expr.same]
  | .array as, b, h => by
    cases b <;> simp only [Expr.same, Bool.false_eq_true] at h
    rw [Expr.eq_of_sameList as _ h]
  | .hash as, b, h => by
    cases b <;> simp only [Expr.same, Bool.false_eq_true] at h
    rw [Expr.eq_of_sameEntries as _ h]
  | .unary _ a, b, h | .assign _ a, b, h => by
    cases b <;> simp only [Expr.same, Bool.false_eq_true, Bool.and_eq_true, beq_iff_eq] at h
    rw [h.1, Expr.eq_of_same a _ h.2]
  | .binary a _ b, c, h => by
    cases c <;> simp only [Expr.same, Bool.false_eq_true, Bool.and_eq_true, beq_iff_eq] at h
    rw [h.1.1, Expr.eq_of_same a _ h.1.2, Expr.eq_of_same b _ h.2]
  | .index a b, c, h => by
    cases c <;> simp only [Expr.same, Bool.false_eq_true, Bool.and_eq_true] at h
    rw [Expr.eq_of_same a _ h.1, Expr.eq_of_same b _ h.2]
  | .ifElse a s o, b, h => by
    cases b <;> simp only [Expr.same, Bool.false_eq_true, Bool.and_eq_true] at h
    rw [Expr.eq_of_same a _ h.1.1, Stmt.eq_of_sameList s _ h.1.2, Stmt.eq_of_sameElse o _ h.2]
  | .forIn _ a s, b, h => by
    cases b <;> simp only [Expr.same, Bool.false_eq_true, Bool.and_eq_true, beq_iff_eq] at h
    rw [h.1.1, Expr.eq_of_same a _ h.1.2, Stmt.eq_of_sameList s _ h.2]
  | .whileDo a s, b, h => by
    cases b <;> simp only [Expr.same, Bool.false_eq_true, Bool.and_eq_true] at h
    rw [Expr.eq_of_same a _ h.1, Stmt.eq_of_sameList s _ h.2]
  | .function _ s, b, h => by
    cases b <;> simp only [Expr.same, Bool.false_eq_true, Bool.and_eq_true, beq_iff_eq] at h
    rw [h.1, Stmt.eq_of_sameList s _ h.2]
  | .call a as, b, h => by
    cases b <;> simp only [Expr.same, Bool.false_eq_true, Bool.and_eq_true] at h
    rw [Expr.eq_of_same a _ h.1, Expr.eq_of_sameList as _ h.2]

theorem Expr.eq_of_sameList : ∀ as bs : List Expr, Expr.sameList as bs = true → as = bs
  | [], bs, h => by cases bs <;> simp_all [Expr.sameList]
  | a :: as, bs, h => by
    cases bs <;> simp only [Expr.sameList, Bool.false_eq_true, Bool.and_eq_true] at h
    rw [Expr.eq_of_same a _ h.1, Expr.eq_of_sameList as _ h.2]

theorem Expr.eq_of_sameEntries :
    ∀ as bs : List (Expr × Expr), Expr.sameEntries as bs = true → as = bs
  | [], bs, h => by cases bs <;> simp_all [Expr.sameEntries]
  | (_, _) :: _, [], h => by simp [Expr.sameEntries] at h
  | (a, b) :: as, (_, _) :: _, h => by
    simp only [Expr.sameEntries, Bool.and_eq_true] at h
    rw [Expr.eq_of_same a _ h.1.1, Expr.eq_of_same b _ h.1.2, Expr.eq_of_sameEntries as _ h.2]

theorem Stmt.eq_of_same : ∀ (a b : Stmt), a.same b = true → a = b
  | .define _ a, b, h => by
    cases b <;> simp only [Stmt.same, Bool.false_eq_true, Bool.and_eq_true, beq_iff_eq] at h
    rw [h.1, Expr.eq_of_same a _ h.2]
  | .ret a, b, h | .expr a, b, h => by
    cases b <;> simp only [Stmt.same, Bool.false_eq_true] at h
    rw [Expr.eq_of_same a _ h]
  | .brk, b, h | .cont, b, h => by cases b <;> simp_all [Stmt.same]

theorem Stmt.eq_of_sameList : ∀ as bs : List Stmt, Stmt.sameList as bs = true → as = bs
  | [], bs, h => by cases bs <;> simp_all [Stmt.sameList]
  | a :: as, bs, h => by
    cases bs <;> simp only [Stmt.sameList, Bool.false_eq_true, Bool.and_eq_true] at h
    rw [Stmt.eq_of_same a _ h.1, Stmt.eq_of_sameList as _ h.2]

theorem Stmt.eq_of_sameElse :
    ∀ o p : Option (List Stmt), Stmt.sameElse o p = true → o = p
  | none, p, h => by cases p <;> simp_all [Stmt.sameElse]
  | some as, p, h => by
    cases p <;> simp only [Stmt.sameElse, Bool.false_eq_true] at h
    rw [Stmt.eq_of_sameList as _ h]

end

theorem Expr.same_iff {a b : Expr} : a.same b = true ↔ a = b :=
  ⟨a.eq_of_same b, fun h => h ▸ a.same_self⟩

theorem Stmt.same_iff {a b : Stmt} : a.same b = true ↔ a = b :=
  ⟨a.eq_of_same b, fun h => h ▸ a.same_self⟩

instance : DecidableEq Expr := fun _ _ => decidable_of_iff _ Expr.same_iff

instance : DecidableEq Stmt := fun _ _ => decidable_of_iff _ Stmt.same_iff

end MonkeyLang
