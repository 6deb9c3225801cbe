/-
What all parsers do. A property that the small parsers have, and that passes
from parsers to those built from them, is one of expressions and of statements
too, whatever the bound. It comes in two grades: the strict one is for parsers
that begin with taking a token.
-/
import MonkeyLang.Program.Parser

namespace MonkeyLang.Parser

/-- Properties of parsers that pass to the parsers built from them. Only a parser with the strict
one can be tried for each statement of a block. -/
structure Habit (P Q : {α : Type} → Parser α → Prop) : Prop where
  of_strict {α : Type} {p : Parser α} : Q p → P p
  pure {α : Type} (a : α) : P (pure a : Parser α)
  fail {α : Type} (e : ParseError) : P (fail e : Parser α)
  peek : P peek
  next : Q next
  bind {α β : Type} {p : Parser α} {f : α → Parser β} : P p → (∀ a, P (f a)) → P (p >>= f)
  bind_strict {α β : Type} {p : Parser α} {f : α → Parser β} :
    Q p → (∀ a, P (f a)) → Q (p >>= f)
  peek_strict {α : Type} {f : Kind → Parser α} : (∀ k, Q (f k)) → Q (Parser.peek >>= f)
  block {p : Parser Stmt} : Q p → ∀ n, P (block p n)

namespace Habit

section

variable {P Q : {α : Type} → Parser α → Prop} {α β : Type} {want close : Kind} {p : Parser α}
  {f : Token → Parser α}

theorem take (h : Habit P Q) (hf : ∀ t, P (f t)) : Q (Parser.next >>= f) :=
  h.bind_strict h.next hf

theorem unexpected (h : Habit P Q) (want : Kind) : P (unexpected want : Parser α) :=
  h.bind h.peek fun _ => h.fail _

theorem expect (h : Habit P Q) (want : Kind) : P (expect want) := by
  refine h.bind h.peek fun k => ?_
  split
  · exact h.of_strict h.next
  · exact h.unexpected want

theorem accept (h : Habit P Q) (want : Kind) : P (accept want) := by
  refine h.bind h.peek fun k => ?_
  split
  · exact h.of_strict (h.take fun _ => h.pure _)
  · exact h.pure _

theorem name (h : Habit P Q) : P name := h.bind (h.expect _) fun _ => h.pure _

theorem symbol (h : Habit P Q) (want : Kind) : P (symbol want) :=
  h.bind (h.expect want) fun _ => h.pure _

theorem semicolon (h : Habit P Q) : P semicolon := h.bind (h.accept _) fun _ => h.pure _

theorem commaList (h : Habit P Q) (hp : P p) : ∀ n, P (commaList close want p n)
  | 0 => h.unexpected want
  | n + 1 => by
    refine h.bind (h.accept close) fun b => ?_
    split
    · exact h.pure _
    · refine h.bind hp fun a => h.bind (h.accept .comma) fun b => ?_
      split
      · exact h.bind (h.commaList hp n) fun _ => h.pure _
      · refine h.bind (h.accept close) fun b => ?_
        split
        · exact h.pure _
        · exact h.unexpected want

theorem climb (h : Habit P Q) {suffix : Expr → Kind → Parser Expr} {level : Nat}
    (hs : ∀ e k, P (suffix e k)) : ∀ n e, P (climb suffix level n e)
  | 0, _ => h.pure _
  | n + 1, e => by
    refine h.bind h.peek fun k => ?_
    split
    · exact h.of_strict (h.take fun _ => h.bind (hs e k) fun e => h.climb hs n e)
    · exact h.pure _

/-- Statements after an opening brace. -/
theorem braces (h : Habit P Q) {p : Parser Stmt} (hp : Q p) {f : Block → Parser β} {n : Nat}
    (hf : ∀ b, P (f b)) : P (Parser.symbol .lbrace >>= fun _ => Parser.block p n >>= f) :=
  h.bind (h.symbol _) fun _ => h.bind (h.block hp n) hf

/-- What stands in parentheses, and then statements in braces. -/
theorem guarded (h : Habit P Q) {q : Parser α} (hq : P q) {p : Parser Stmt} (hp : Q p)
    {f : α → Block → Parser β} {n : Nat} (hf : ∀ a b, P (f a b)) :
    P (q >>= fun a => Parser.symbol .rparen >>= fun _ => Parser.symbol .lbrace >>= fun _ =>
      Parser.block p n >>= f a) :=
  h.bind hq fun a => h.bind (h.symbol _) fun _ => h.braces hp (hf a)

end

/-- The parsers with the bound `n` have the property. -/
structure HoldsAt (P Q : {α : Type} → Parser α → Prop) (n : Nat) : Prop where
  expr : ∀ level, Q (expr n level)
  operand : Q (operand n)
  entry : Q (entry n)
  suffix : ∀ left kind, P (suffix n left kind)
  stmt : Q (stmt n)

section

variable {P Q : {α : Type} → Parser α → Prop} {n : Nat}

theorem zero (h : Habit P Q) : HoldsAt P Q 0 where
  expr _ := h.take fun _ => h.fail _
  operand := h.take fun _ => h.fail _
  entry := h.take fun _ => h.fail _
  suffix _ _ := h.of_strict (h.take fun _ => h.fail _)
  stmt := h.take fun _ => h.fail _

theorem operand_succ (h : Habit P Q) (hn : HoldsAt P Q n) : Q (Parser.operand (n + 1)) := by
  have expr (level : Nat) : P (Parser.expr n level) := h.of_strict (hn.expr level)
  rw [Parser.operand]
  refine h.take fun t => ?_
  split
  case h_1 | h_3 | h_4 | h_5 => exact h.pure _
  case h_2 =>
    split
    · exact h.pure _
    · exact h.fail _
  case h_6 | h_7 => exact h.bind (expr _) fun _ => h.pure _
  case h_8 => exact h.bind (expr _) fun _ => h.bind (h.symbol _) fun _ => h.pure _
  case h_9 => exact h.bind (h.commaList (expr 0) n) fun _ => h.pure _
  case h_10 => exact h.bind (h.commaList (h.of_strict hn.entry) n) fun _ => h.pure _
  case h_11 =>
    refine h.bind (h.symbol _) fun _ => h.guarded (expr 0) hn.stmt fun c b =>
      h.bind (h.accept _) fun e => ?_
    split
    · exact h.braces hn.stmt fun _ => h.pure _
    · exact h.pure _
  case h_12 =>
    exact h.bind (h.symbol _) fun _ => h.bind h.name fun x => h.bind (h.symbol _) fun _ =>
      h.guarded (expr 0) hn.stmt fun _ _ => h.pure _
  case h_13 =>
    exact h.bind (h.symbol _) fun _ => h.guarded (expr 0) hn.stmt fun _ _ => h.pure _
  case h_14 =>
    exact h.bind (h.symbol _) fun _ => h.bind (h.commaList h.name n) fun xs =>
      h.braces hn.stmt fun _ => h.pure _
  case h_15 => exact h.fail _

theorem suffix_succ (h : Habit P Q) (hn : HoldsAt P Q n) (left : Expr) (kind : Kind) :
    P (Parser.suffix (n + 1) left kind) := by
  have expr (level : Nat) : P (Parser.expr n level) := h.of_strict (hn.expr level)
  unfold Parser.suffix
  split
  · exact h.bind (h.commaList (expr 0) n) fun _ => h.pure _
  · exact h.bind (expr 0) fun _ => h.bind (h.symbol _) fun _ => h.pure _
  · split
    · exact h.bind (expr 0) fun _ => h.pure _
    · exact h.fail _
  · split
    · exact h.bind (expr _) fun _ => h.pure _
    · exact h.pure _

theorem stmt_succ (h : Habit P Q) (hn : HoldsAt P Q n) : Q (Parser.stmt (n + 1)) := by
  rw [Parser.stmt]
  refine h.peek_strict fun k => ?_
  split
  · exact h.take fun _ => h.bind h.name fun x => h.bind (h.symbol _) fun _ =>
      h.bind (h.of_strict (hn.expr 0)) fun e => h.bind h.semicolon fun _ => h.pure _
  · exact h.take fun _ => h.bind (h.of_strict (hn.expr 0)) fun e =>
      h.bind h.semicolon fun _ => h.pure _
  · exact h.take fun _ => h.bind h.semicolon fun _ => h.pure _
  · exact h.take fun _ => h.bind h.semicolon fun _ => h.pure _
  · exact h.bind_strict (hn.expr 0) fun e => h.bind h.semicolon fun _ => h.pure _

theorem holds (h : Habit P Q) : ∀ n, HoldsAt P Q n
  | 0 => h.zero
  | n + 1 =>
    have hn := h.holds n
    { expr := fun level => by
        rw [Parser.expr]
        exact h.bind_strict hn.operand fun e => h.climb hn.suffix n e
      operand := h.operand_succ hn
      entry := by
        rw [Parser.entry]
        exact h.bind_strict (hn.expr 0) fun k => h.bind (h.symbol _) fun _ =>
          h.bind (h.of_strict (hn.expr 0)) fun v => h.pure _
      suffix := h.suffix_succ hn
      stmt := h.stmt_succ hn }

end

end Habit

end MonkeyLang.Parser
