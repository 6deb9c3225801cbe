/-
The grammar of programs over their tokens. `Derives p ts a` says that the
tokens `ts`, and no others, form the phrase `p`, and that `a` is the tree of
this derivation. Parentheses around an expression leave no trace in its tree.

Expressions come in seven tiers, from assignments to operands. The binary
operators of a tier group to the left; their right operand is of the next
tier. Nothing here mentions how a program is read.
-/
import MonkeyLang.Program
import MonkeyLang.Token

namespace MonkeyLang

/-- The token an operator in front of its operand is written with. -/
def UnaryOp.kind : UnaryOp → Kind
  | not => .bang
  | negate => .minus

namespace BinaryOp

/-- The token an operator between its operands is written with. -/
def kind : BinaryOp → Kind
  | add => .plus
  | subtract => .minus
  | multiply => .asterisk
  | divide => .slash
  | equal => .eq
  | notEqual => .notEq
  | less => .lt
  | greater => .gt

/-- The tier of the expressions that an operator makes. -/
def tier : BinaryOp → Nat
  | equal | notEqual => 1
  | less | greater => 2
  | add | subtract => 3
  | multiply | divide => 4

end BinaryOp

namespace Grammar

inductive Phrase where
  /-- Tier 0 holds the assignments and tier 6 the operands, with the calls and the members of
  collections. -/
  | expr (tier : Nat)
  /-- What can be assigned to. -/
  | target
  /-- A parameter of a function. -/
  | param
  /-- An entry of a hash literal. -/
  | entry
  /-- Any number of these phrases with commas between them, and perhaps one after the last. -/
  | list (item : Phrase)
  | block
  /-- A statement without its semicolon. -/
  | stmt
  | stmts

def Phrase.Tree : Phrase → Type
  | .expr _ => Expr
  | .target | .param => String
  | .entry => Expr × Expr
  | .list item => List item.Tree
  | .stmt => Stmt
  | .block | .stmts => List Stmt

/-- The number that the digits of a token stand for. -/
def decimal (digits : String) : Nat := Nat.ofDigitChars 10 digits.toList 0

/-- The tokens that go on with an expression. -/
def continuing : List Kind :=
  [.assign, .eq, .notEq, .lt, .gt, .plus, .minus, .asterisk, .slash, .lparen, .lbracket]

/-- The statement needs no semicolon before these tokens. -/
def MayStayOpen (s : Stmt) (next : List Token) : Prop :=
  s = .brk ∨ s = .cont ∨ ∀ t ∈ next.head?, t.kind ∉ continuing

inductive Derives : (p : Phrase) → List Token → p.Tree → Prop
  | assign : Derives .target ts x → Derives (.expr 0) us e →
      Derives (.expr 0) (ts ++ ⟨.assign, w⟩ :: us) (.assign x e)
  | binary (op : BinaryOp) : Derives (.expr op.tier) ts l → Derives (.expr (op.tier + 1)) us r →
      Derives (.expr op.tier) (ts ++ ⟨op.kind, w⟩ :: us) (.binary l op r)
  | unary (op : UnaryOp) : Derives (.expr 5) ts e →
      Derives (.expr 5) (⟨op.kind, w⟩ :: ts) (.unary op e)
  | call : Derives (.expr 6) ts f → Derives (.list (.expr 0)) us es →
      Derives (.expr 6) (ts ++ ⟨.lparen, w₁⟩ :: us ++ [⟨.rparen, w₂⟩]) (.call f es)
  | index : Derives (.expr 6) ts c → Derives (.expr 0) us k →
      Derives (.expr 6) (ts ++ ⟨.lbracket, w₁⟩ :: us ++ [⟨.rbracket, w₂⟩]) (.index c k)
  | tighter : Derives (.expr (k + 1)) ts e → Derives (.expr k) ts e
  | ident : Derives (.expr 6) [⟨.ident, x⟩] (.ident x)
  | integer : decimal w ≤ 0x7FFFFFFFFFFFFFFF →
      Derives (.expr 6) [⟨.int, w⟩] (.integer (Int64.ofNat (decimal w)))
  | string : Derives (.expr 6) [⟨.string, s⟩] (.string s)
  | true : Derives (.expr 6) [⟨.kwTrue, w⟩] (.boolean true)
  | false : Derives (.expr 6) [⟨.kwFalse, w⟩] (.boolean false)
  | group : Derives (.expr 0) ts e →
      Derives (.expr 6) (⟨.lparen, w₁⟩ :: ts ++ [⟨.rparen, w₂⟩]) e
  | array : Derives (.list (.expr 0)) ts es →
      Derives (.expr 6) (⟨.lbracket, w₁⟩ :: ts ++ [⟨.rbracket, w₂⟩]) (.array es)
  | hash : Derives (.list .entry) ts es →
      Derives (.expr 6) (⟨.lbrace, w₁⟩ :: ts ++ [⟨.rbrace, w₂⟩]) (.hash es)
  | ifThen : Derives (.expr 0) ts c → Derives .block us b →
      Derives (.expr 6) (⟨.kwIf, w₁⟩ :: ⟨.lparen, w₂⟩ :: ts ++ ⟨.rparen, w₃⟩ :: us)
        (.ifElse c b none)
  | ifElse : Derives (.expr 0) ts c → Derives .block us b → Derives .block vs d →
      Derives (.expr 6)
        (⟨.kwIf, w₁⟩ :: ⟨.lparen, w₂⟩ :: ts ++ ⟨.rparen, w₃⟩ :: us ++ ⟨.kwElse, w₄⟩ :: vs)
        (.ifElse c b (some d))
  | forIn : Derives (.expr 0) ts e → Derives .block us b →
      Derives (.expr 6)
        (⟨.kwFor, w₁⟩ :: ⟨.lparen, w₂⟩ :: ⟨.ident, x⟩ :: ⟨.kwIn, w₃⟩ :: ts ++ ⟨.rparen, w₄⟩ :: us)
        (.forIn x e b)
  | whileDo : Derives (.expr 0) ts c → Derives .block us b →
      Derives (.expr 6) (⟨.kwWhile, w₁⟩ :: ⟨.lparen, w₂⟩ :: ts ++ ⟨.rparen, w₃⟩ :: us)
        (.whileDo c b)
  | function : Derives (.list .param) ts xs → Derives .block us b →
      Derives (.expr 6) (⟨.kwFn, w₁⟩ :: ⟨.lparen, w₂⟩ :: ts ++ ⟨.rparen, w₃⟩ :: us)
        (.function xs b)
  | targetName : Derives .target [⟨.ident, x⟩] x
  | targetGroup : Derives .target ts x →
      Derives .target (⟨.lparen, w₁⟩ :: ts ++ [⟨.rparen, w₂⟩]) x
  | param : Derives .param [⟨.ident, x⟩] x
  | entry : Derives (.expr 0) ts k → Derives (.expr 0) us v →
      Derives .entry (ts ++ ⟨.colon, w⟩ :: us) (k, v)
  | none : Derives (.list p) [] []
  | last : Derives p ts a → Derives (.list p) ts [a]
  | more : Derives p ts a → Derives (.list p) us as →
      Derives (.list p) (ts ++ ⟨.comma, w⟩ :: us) (a :: as)
  | block : Derives .stmts ts b → Derives .block (⟨.lbrace, w₁⟩ :: ts ++ [⟨.rbrace, w₂⟩]) b
  | define : Derives (.expr 0) ts e →
      Derives .stmt (⟨.kwLet, w₁⟩ :: ⟨.ident, x⟩ :: ⟨.assign, w₂⟩ :: ts) (.define x e)
  | ret : Derives (.expr 0) ts e → Derives .stmt (⟨.kwReturn, w⟩ :: ts) (.ret e)
  | eval : Derives (.expr 0) ts e → Derives .stmt ts (.expr e)
  | brk : Derives .stmt [⟨.kwBreak, w⟩] .brk
  | cont : Derives .stmt [⟨.kwContinue, w⟩] .cont
  | stop : Derives .stmts [] []
  | closed : Derives .stmt ts s → Derives .stmts us ss →
      Derives .stmts (ts ++ ⟨.semicolon, w⟩ :: us) (s :: ss)
  | open : Derives .stmt ts s → MayStayOpen s us → Derives .stmts us ss →
      Derives .stmts (ts ++ us) (s :: ss)

variable {p : Phrase} {ts : List Token} {j k : Nat} {e : Expr} {x : String}

/-- A tighter expression is also a looser one. -/
theorem Derives.loosen (h : Derives (.expr k) ts e) (hjk : j ≤ k) : Derives (.expr j) ts e := by
  induction hjk with
  | refl => exact h
  | step _ ih => exact ih h.tighter

/-- If the tree of an expression is only a name, the expression can be assigned to. -/
def Assignable : (p : Phrase) → List Token → p.Tree → Prop
  | .expr _, ts, .ident x => Derives .target ts x
  | _, _, _ => True

theorem Derives.assignable {a : p.Tree} (h : Derives p ts a) : Assignable p ts a := by
  induction h with
  | @tighter _ _ e _ ih => cases e <;> exact ih
  | ident => exact .targetName
  | @group _ e _ _ _ ih =>
    cases e with
    | ident x => exact .targetGroup ih
    | _ => trivial
  | _ => trivial

/-- An expression whose tree is a name is that name in parentheses, so it can be assigned to. -/
theorem Derives.target_of_ident (h : Derives (.expr k) ts (.ident x)) : Derives .target ts x :=
  h.assignable

/-! ## The tokens that begin a phrase -/

/-- No expression and no statement begins with these tokens. -/
def closing : List Kind :=
  [.illegal, .eof, .comma, .semicolon, .colon, .rparen, .rbrace, .rbracket, .kwElse, .kwIn]

/-- The first of the tokens is there and begins an expression or a statement. -/
def Opens (ts : List Token) : Prop := ∃ t us, ts = t :: us ∧ t.kind ∉ closing

theorem Opens.append (h : Opens ts) (us : List Token) : Opens (ts ++ us) := by
  obtain ⟨t, vs, rfl, ht⟩ := h
  exact ⟨t, vs ++ us, rfl, ht⟩

theorem opens_cons {k : Kind} {w : String} (h : k ∉ closing) : Opens (⟨k, w⟩ :: ts) :=
  ⟨⟨k, w⟩, ts, rfl, h⟩

/-- Lists of phrases and of statements may be empty; no other phrase is. -/
def MayBegin : Phrase → List Token → Prop
  | .list _, _ => True
  | .stmts, ts => ts = [] ∨ Opens ts
  | _, ts => Opens ts

theorem Derives.mayBegin {a : p.Tree} (h : Derives p ts a) : MayBegin p ts := by
  induction h with
  | assign _ _ ih | binary _ _ _ ih | entry _ _ ih => exact ih.append _
  | call _ _ ih | index _ _ ih => exact (ih.append _).append _
  | tighter _ ih | eval _ ih => exact ih
  | unary op => exact opens_cons (by cases op <;> decide)
  | none | last | more => trivial
  | stop => exact .inl rfl
  | closed _ _ ih => exact .inr (ih.append _)
  | «open» _ _ _ ih => exact .inr (ih.append _)
  | _ => exact opens_cons (by decide)

theorem Derives.opens (h : Derives (.expr k) ts e) : Opens ts := h.mayBegin

theorem Derives.opens_stmt {s : Stmt} (h : Derives .stmt ts s) : Opens ts := h.mayBegin

end Grammar

end MonkeyLang
