/-
Every phrase of the grammar is read as its tree. A derivation of an expression
follows the tiers, while the parser loops over operators, so the two meet in
`Arrives`: the parser has read the tokens of the derivation as its tree and is
about to look at the operator behind them. With the other direction, a source is
read without an error just when the grammar has it.
-/
import MonkeyLang.Proofs.Grammar.Soundness

namespace MonkeyLang.Parser

open Grammar

/-! ## The loop over operators -/

section

variable {α : Type} {f : Token → Parser α} {suffix : Expr → Kind → Parser Expr} {n m level k : Nat}
  {t : Token} {ts us mid rest rest' : List Token} {a : α} {e l e' : Expr}

theorem Reads.of_next (h : (f t).Reads ts a rest) : (next >>= f).Reads (t :: ts) a rest :=
  reads_bind.2 ⟨t, ts, reads_next.2 (.inl rfl), h⟩

theorem Reads.of_bind {β : Type} {p : Parser β} {f : β → Parser α} {b : β}
    (hp : p.Reads ts b mid) (hf : (f b).Reads mid a rest) : (p >>= f).Reads ts a rest :=
  reads_bind.2 ⟨b, mid, hp, hf⟩

theorem Reads.of_symbol {p : Parser α} {w : String} {want : Kind} (hw : want ≠ .eof)
    (h : p.Reads ts a rest) : (symbol want >>= fun _ => p).Reads (⟨want, w⟩ :: ts) a rest :=
  reads_bind.2 ⟨(), ts, (reads_symbol hw).2 ⟨w, rfl⟩, h⟩

/-- The loop stops before an operator that does not bind tightly enough. -/
theorem climb_stop (h : (ahead ts).binding ≤ level) :
    (climb suffix level m e).Reads ts e ts := by
  cases m with
  | zero => exact reads_pure.2 ⟨rfl, rfl⟩
  | succ m =>
    simp only [climb, reads_bind, reads_peek]
    exact ⟨_, _, ⟨rfl, rfl⟩, by simp [Nat.not_lt.2 h]⟩

theorem climb_step (hb : level < t.kind.binding) (hs : (suffix l t.kind).Reads ts e mid)
    (h : (climb suffix level m e).Reads mid e' rest) :
    (climb suffix level (m + 1) l).Reads (t :: ts) e' rest := by
  simp only [climb, reads_bind, reads_peek]
  refine ⟨_, _, ⟨rfl, rfl⟩, ?_⟩
  rw [if_pos (show level < (ahead (t :: ts)).binding from hb)]
  exact .of_next (reads_bind.2 ⟨e, mid, hs, h⟩)

/-- Reading an expression from `ts` and `rest` comes to the point where `ts` is read as `e` and
the operators in `rest` are next. -/
def Arrives (n level : Nat) (ts : List Token) (e : Expr) (rest : List Token) : Prop :=
  ∃ m, n ≤ m + ts.length ∧ ∀ {e' rest'}, (climb (Parser.suffix n) level m e).Reads rest e' rest' →
    (expr (n + 1) level).Reads (ts ++ rest) e' rest'

theorem Arrives.of_operand (h : (operand n).Reads (ts ++ rest) e rest) :
    Arrives n level ts e rest := by
  refine ⟨n, Nat.le_add_right n _, fun hc => ?_⟩
  rw [expr]
  exact reads_bind.2 ⟨e, rest, h, hc⟩

theorem Arrives.step (h : Arrives n level ts l (t :: us ++ rest)) (hn : ts.length < n)
    (hb : level < t.kind.binding) (hs : (Parser.suffix n l t.kind).Reads (us ++ rest) e rest) :
    Arrives n level (ts ++ t :: us) e rest := by
  obtain ⟨m, hm, h⟩ := h
  obtain ⟨m, rfl⟩ : ∃ j, m = j + 1 := ⟨m - 1, by omega⟩
  refine ⟨m, by simp; omega, fun hc => ?_⟩
  rw [List.append_assoc]
  exact h (climb_step hb hs hc)

theorem Arrives.reads (h : Arrives n level ts e rest) (hb : (ahead rest).binding ≤ level) :
    (expr (n + 1) level).Reads (ts ++ rest) e rest := by
  obtain ⟨m, -, h⟩ := h
  exact h (climb_stop hb)

/-- The tightest operator that may follow an expression of a tier. -/
def reach (tier : Nat) : Nat := if tier = 0 then 0 else if tier < 6 then tier + 1 else 8

theorem le_reach (hl : level ≤ 6) (hk : min level 5 ≤ k) : level ≤ reach k := by grind [reach]

theorem reach_le_succ (k : Nat) : reach k ≤ reach (k + 1) := by grind [reach]

end

/-! ## What each phrase promises -/

/-- The tokens that come next bind at most this tightly to an expression before them, and do not
begin the other branch of a conditional. -/
def Follows (b : Nat) (rest : List Token) : Prop :=
  (ahead rest).binding ≤ b ∧ ahead rest ≠ .kwElse

theorem Follows.mono {b c : Nat} {rest : List Token} (h : Follows b rest) (hbc : b ≤ c) :
    Follows c rest :=
  ⟨Nat.le_trans h.1 hbc, h.2⟩

theorem follows_cons {b : Nat} {k : Kind} {w : String} {rest : List Token} (hb : k.binding ≤ b)
    (hk : k ≠ .kwElse) : Follows b (⟨k, w⟩ :: rest) :=
  ⟨hb, hk⟩

/-- What ends a statement that is not a jump does not go on with its expression. -/
theorem Ends.follows {s : Stmt} {ts rest : List Token} (h : Ends s ts rest) (hb : s ≠ .brk)
    (hc : s ≠ .cont) (he : ahead ts ≠ .kwElse) : Follows 0 ts := by
  refine ⟨?_, he⟩
  obtain ⟨w, rfl⟩ | ⟨ho, -, -⟩ := h
  · exact Nat.le_refl 0
  obtain rfl | rfl | ho := ho
  · exact absurd rfl hb
  · exact absurd rfl hc
  cases ts with
  | nil => exact Nat.le_refl 0
  | cons t ts => exact Nat.le_of_eq (not_mem_continuing.1 (ho t rfl))

theorem Ends.reads_semicolon {α : Type} {p : Parser α} {a : α} {s : Stmt}
    {ts mid rest : List Token} (h : Ends s ts mid) (hp : p.Reads mid a rest) :
    (semicolon >>= fun _ => p).Reads ts a rest := by
  refine reads_bind.2 ⟨(), mid, Parser.reads_semicolon.2 ?_, hp⟩
  obtain h | ⟨-, hs, rfl⟩ := h
  · exact .inl h
  · exact .inr ⟨hs, rfl⟩

/-- The parser takes each phrase off tokens that go on with something it cannot swallow, given a
high enough bound. -/
def Taken : (p : Phrase) → List Token → p.Tree → Prop
  | .expr k, ts, e => ∀ {n level rest}, 3 * ts.length ≤ n → min level 5 ≤ k → level ≤ 6 →
      Follows (reach k) rest → Arrives n level ts e rest
  | .target, ts, x => ∀ {n level rest}, 3 * ts.length ≤ n → level ≤ 6 →
      Follows 8 rest → Arrives n level ts (.ident x) rest
  | .param, ts, x => ∀ {rest}, name.Reads (ts ++ rest) x rest
  | .entry, ts, a => ∀ {n rest}, 3 * ts.length + 2 ≤ n → Follows 0 rest →
      (entry n).Reads (ts ++ rest) a rest
  | .list p, ts, as => ∀ {item : Parser p.Tree} {close wanted : Kind} {n : Nat} {rest w},
      close ≠ .eof → close ≠ .comma →
      (∀ {t us a rest}, t.kind = close → ¬item.Reads (t :: us) a rest) →
      (∀ {us a k w rest}, us.length ≤ ts.length → Taken p us a → k = .comma ∨ k = close →
        item.Reads (us ++ ⟨k, w⟩ :: rest) a (⟨k, w⟩ :: rest)) →
      ts.length < n → (commaList close wanted item n).Reads (ts ++ ⟨close, w⟩ :: rest) as rest
  | .block, ts, b => ∃ w us, ts = ⟨.lbrace, w⟩ :: us ∧ ∀ {n rest}, 3 * ts.length ≤ n →
      (block (stmt n) n).Reads (us ++ rest) b rest
  | .stmt, ts, s => ∀ {n mid rest}, 3 * ts.length + 2 ≤ n → Ends s mid rest →
      ahead mid ≠ .kwElse → (stmt n).Reads (ts ++ mid) s rest
  | .stmts, ts, ss => ∀ {n m}, 3 * ts.length + 2 ≤ n → ts.length < m →
      (∀ {w rest}, (block (stmt n) m).Reads (ts ++ ⟨.rbrace, w⟩ :: rest) ss rest) ∧
      (program (stmt n) m).Reads ts ss []

/-! ## Operators -/

section

variable {n m level k : Nat} {ts us vs rest : List Token} {e l r c f v : Expr} {w w₁ w₂ x : String}
  {es : List Expr} {xs : List String} {b d : Block} {s : Stmt} {close : Kind}

theorem Taken.reads (h : Taken (.expr k) ts e) (hn : 3 * ts.length + 1 ≤ n) (hk : min level 5 ≤ k)
    (hl : level ≤ 6) (hf : Follows level rest) : (expr n level).Reads (ts ++ rest) e rest := by
  obtain ⟨n, rfl⟩ : ∃ j, n = j + 1 := ⟨n - 1, by omega⟩
  exact (h (by omega) hk hl (hf.mono (le_reach hl hk))).reads hf.1

/-- What stands between brackets is read up to the closing one. -/
theorem Taken.reads_closed (h : Taken (.expr 0) ts e) (hn : 3 * ts.length + 1 ≤ n)
    (hf : Follows 0 rest) : (expr n 0).Reads (ts ++ rest) e rest :=
  h.reads hn (Nat.zero_le _) (Nat.zero_le _) hf

theorem taken_tighter (h : Taken (.expr (k + 1)) ts e) : Taken (.expr k) ts e := by
  intro n level rest hn hk hl hf
  exact h hn (by omega) hl (hf.mono (reach_le_succ k))

theorem taken_assign (hx : Taken .target ts x) (he : Taken (.expr 0) us e) :
    Taken (.expr 0) (ts ++ ⟨.assign, w⟩ :: us) (.assign x e) := by
  intro n level rest hn hk hl hf
  simp only [List.length_append, List.length_cons] at hn
  obtain rfl : level = 0 := by omega
  obtain ⟨n, rfl⟩ : ∃ j, n = j + 1 := ⟨n - 1, by omega⟩
  have hx : Arrives (n + 1) 0 ts (.ident x) (⟨.assign, w⟩ :: us ++ rest) :=
    hx (by omega) hl (follows_cons (by decide) (by decide))
  refine hx.step (by omega) Nat.zero_lt_one ?_
  simp only [suffix, reads_bind, reads_pure]
  exact ⟨e, rest, he.reads_closed (by omega) hf, rfl, rfl⟩

theorem binding_kind (op : BinaryOp) : op.kind.binding = op.tier + 1 := by cases op <;> rfl

theorem reach_tier (op : BinaryOp) : reach op.tier = op.tier + 1 := by cases op <;> rfl

theorem suffix_kind (op : BinaryOp) :
    suffix (n + 1) l op.kind = (expr n (op.tier + 1) >>= fun r => pure (.binary l op r)) := by
  cases op <;> simp only [suffix, BinaryOp.kind, BinaryOp.ofKind?] <;> rfl

theorem taken_binary (op : BinaryOp) (hl : Taken (.expr op.tier) ts l)
    (hr : Taken (.expr (op.tier + 1)) us r) :
    Taken (.expr op.tier) (ts ++ ⟨op.kind, w⟩ :: us) (.binary l op r) := by
  intro n level rest hn hk hlev hf
  rw [reach_tier] at hf
  have ht : op.tier ≤ 4 := by cases op <;> decide
  simp only [List.length_append, List.length_cons] at hn
  obtain ⟨n, rfl⟩ : ∃ j, n = j + 1 := ⟨n - 1, by omega⟩
  have hf' : Follows (reach op.tier) (⟨op.kind, w⟩ :: us ++ rest) :=
    follows_cons (Nat.le_of_eq (by rw [reach_tier, binding_kind])) (by cases op <;> decide)
  have hl : Arrives (n + 1) level ts l (⟨op.kind, w⟩ :: us ++ rest) := hl (by omega) hk hlev hf'
  refine hl.step (by omega) (by rw [binding_kind]; omega) ?_
  simp only [suffix_kind, reads_bind, reads_pure]
  exact ⟨r, rest, hr.reads (by omega) (by omega) (by omega) hf, rfl, rfl⟩

theorem taken_unary (op : UnaryOp) (h : Taken (.expr 5) ts e) :
    Taken (.expr 5) (⟨op.kind, w⟩ :: ts) (.unary op e) := by
  intro n level rest hn hk hl hf
  simp only [List.length_cons] at hn
  obtain ⟨n, rfl⟩ : ∃ j, n = j + 1 := ⟨n - 1, by omega⟩
  have hr : (expr n unaryBinding).Reads (ts ++ rest) e rest :=
    h.reads (by omega) (by decide) (by decide) hf
  refine .of_operand ?_
  rw [operand]
  refine .of_next ?_
  cases op <;> exact reads_bind.2 ⟨e, rest, hr, reads_pure.2 ⟨rfl, rfl⟩⟩

/-! ## Lists -/

section

variable {α : Type} {item : Parser α} {wanted : Kind} {a : α} {as : List α} {mid : List Token}

theorem commaList_nil (hc : close ≠ .eof) :
    (commaList close wanted item (n + 1)).Reads (⟨close, w⟩ :: rest) [] rest := by
  simp only [commaList, reads_bind, reads_accept hc]
  exact ⟨true, rest, .inl ⟨rfl, w, rfl⟩, reads_pure.2 ⟨rfl, rfl⟩⟩

theorem commaList_last (hc : close ≠ .eof) (hm : close ≠ .comma) (hne : ahead ts ≠ close)
    (h : item.Reads ts a (⟨close, w⟩ :: rest)) :
    (commaList close wanted item (n + 1)).Reads ts [a] rest := by
  simp only [commaList, reads_bind, reads_accept hc]
  refine ⟨false, ts, .inr ⟨rfl, hne, rfl⟩, ?_⟩
  simp (disch := decide) only [Bool.false_eq_true, if_false, reads_bind, reads_accept]
  refine ⟨a, _, h, false, _, .inr ⟨rfl, hm, rfl⟩, ?_⟩
  simp only [Bool.false_eq_true, if_false, reads_bind, reads_accept hc]
  exact ⟨true, rest, .inl ⟨rfl, w, rfl⟩, reads_pure.2 ⟨rfl, rfl⟩⟩

theorem commaList_more (hc : close ≠ .eof) (hne : ahead ts ≠ close)
    (h : item.Reads ts a (⟨.comma, w⟩ :: mid))
    (hs : (commaList close wanted item n).Reads mid as rest) :
    (commaList close wanted item (n + 1)).Reads ts (a :: as) rest := by
  simp only [commaList, reads_bind, reads_accept hc]
  refine ⟨false, ts, .inr ⟨rfl, hne, rfl⟩, ?_⟩
  simp (disch := decide) only [Bool.false_eq_true, if_false, reads_bind, reads_accept]
  refine ⟨a, _, h, true, mid, .inl ⟨rfl, w, rfl⟩, ?_⟩
  exact reads_bind.2 ⟨as, rest, hs, reads_pure.2 ⟨rfl, rfl⟩⟩

theorem ahead_ne_of_reads (hi : ∀ {t us a rest}, t.kind = close → ¬item.Reads (t :: us) a rest)
    (hc : close ≠ .eof) (h : item.Reads ts a rest) : ahead ts ≠ close := by
  cases ts with
  | nil => exact hc.symm
  | cons t us => exact fun hk => hi hk h

end

theorem taken_last {p : Phrase} {a : p.Tree} (h : Taken p ts a) : Taken (.list p) ts [a] := by
  intro item close wanted n rest w hc hm hi hr hn
  obtain ⟨n, rfl⟩ : ∃ j, n = j + 1 := ⟨n - 1, by omega⟩
  have ha : item.Reads (ts ++ ⟨close, w⟩ :: rest) a (⟨close, w⟩ :: rest) :=
    hr (Nat.le_refl _) h (.inr rfl)
  exact commaList_last hc hm (ahead_ne_of_reads hi hc ha) ha

theorem taken_more {p : Phrase} {a : p.Tree} {as : List p.Tree} (h : Taken p ts a)
    (hs : Taken (.list p) us as) : Taken (.list p) (ts ++ ⟨.comma, w⟩ :: us) (a :: as) := by
  intro item close wanted n rest w' hc hm hi hr hn
  simp only [List.length_append, List.length_cons] at hn hr
  obtain ⟨n, rfl⟩ : ∃ j, n = j + 1 := ⟨n - 1, by omega⟩
  rw [List.append_assoc]
  have ha : item.Reads (ts ++ ⟨.comma, w⟩ :: (us ++ ⟨close, w'⟩ :: rest)) a
      (⟨.comma, w⟩ :: (us ++ ⟨close, w'⟩ :: rest)) := hr (by omega) h (.inl rfl)
  have hs : (commaList close wanted item n).Reads (us ++ ⟨close, w'⟩ :: rest) as rest :=
    hs hc hm hi (fun hle ht hk => hr (by omega) ht hk) (by omega)
  exact commaList_more hc (ahead_ne_of_reads hi hc ha) ha hs

/-- The tokens that an expression begins with. -/
def leading : List Kind :=
  [.ident, .int, .string, .kwTrue, .kwFalse, .bang, .minus, .lparen, .lbracket, .lbrace, .kwIf,
    .kwFor, .kwWhile, .kwFn]

theorem not_reads_operand {t : Token} (ht : t.kind ∉ leading) :
    ¬(operand n).Reads (t :: ts) e rest := by
  cases n with
  | zero => simp [operand]
  | succ n =>
    obtain ⟨k, w⟩ := t
    simp only [operand, reads_bind]
    intro h
    obtain ⟨u, mid, hn, h⟩ := h
    obtain h' | h' := reads_next.1 hn
    · cases h'
      cases k <;> first | exact not_reads_fail h | exact ht (by simp [leading])
    · cases h'.1

theorem not_reads_expr {t : Token} (ht : t.kind ∉ leading) :
    ¬(expr n level).Reads (t :: ts) e rest := by
  cases n with
  | zero => simp [expr]
  | succ n =>
    simp only [expr, reads_bind]
    intro h
    obtain ⟨_, _, h, _⟩ := h
    exact not_reads_operand ht h

theorem not_reads_entry {t : Token} {a : Expr × Expr} (ht : t.kind ∉ leading) :
    ¬(entry n).Reads (t :: ts) a rest := by
  cases n with
  | zero => simp [entry]
  | succ n =>
    simp only [entry, reads_bind]
    intro h
    obtain ⟨_, _, h, _⟩ := h
    exact not_reads_expr ht h

theorem Taken.args (h : Taken (.list (.expr 0)) us es) (hn : 3 * us.length + 1 ≤ n)
    (hc : close = .rparen ∨ close = .rbracket) :
    (commaList close close (expr n 0) n).Reads (us ++ ⟨close, w⟩ :: rest) es rest := by
  have hcl : close ∉ leading := by obtain rfl | rfl := hc <;> decide
  refine h (by obtain rfl | rfl := hc <;> decide) (by obtain rfl | rfl := hc <;> decide)
    (fun hk => not_reads_expr (hk ▸ hcl)) (fun hle hu hk => ?_) (by omega)
  refine hu.reads_closed (by omega) ?_
  obtain rfl | rfl := hk
  · exact follows_cons (by decide) (by decide)
  · obtain rfl | rfl := hc <;> exact follows_cons (by decide) (by decide)

theorem Taken.entries {as : List (Expr × Expr)} (h : Taken (.list .entry) us as)
    (hn : 3 * us.length + 2 ≤ n) :
    (commaList .rbrace .comma (entry n) n).Reads (us ++ ⟨.rbrace, w⟩ :: rest) as rest := by
  refine h (by decide) (by decide) (fun hk => not_reads_entry (hk ▸ by decide))
    (fun hle hu hk => hu (by omega) ?_) (by omega)
  obtain rfl | rfl := hk <;> exact follows_cons (by decide) (by decide)

theorem Taken.params (h : Taken (.list .param) us xs) (hn : us.length < n) :
    (commaList .rparen .rparen name n).Reads (us ++ ⟨.rparen, w⟩ :: rest) xs rest := by
  refine h (by decide) (by decide) (fun hk hr => ?_) (fun _ hu _ => hu) hn
  have := reads_name.1 hr
  simp_all

theorem taken_entry (hk : Taken (.expr 0) ts c) (hv : Taken (.expr 0) us v) :
    Taken .entry (ts ++ ⟨.colon, w⟩ :: us) (c, v) := by
  intro n rest hn hf
  simp only [List.length_append, List.length_cons] at hn
  obtain ⟨n, rfl⟩ : ∃ j, n = j + 1 := ⟨n - 1, by omega⟩
  have hc : (expr n 0).Reads (ts ++ ⟨.colon, w⟩ :: (us ++ rest)) c (⟨.colon, w⟩ :: (us ++ rest)) :=
    hk.reads_closed (by omega) (follows_cons (by decide) (by decide))
  have hs : (symbol .colon).Reads (⟨.colon, w⟩ :: (us ++ rest)) () (us ++ rest) :=
    (reads_symbol (by decide)).2 ⟨w, rfl⟩
  rw [List.append_assoc, entry]
  exact reads_bind.2 ⟨c, _, hc, reads_bind.2 ⟨(), _, hs, reads_bind.2
    ⟨v, rest, hv.reads_closed (by omega) hf, reads_pure.2 ⟨rfl, rfl⟩⟩⟩⟩

/-! ## Operands -/

/-- An operand is read whatever comes behind it. -/
theorem taken_operand
    (h : ∀ {n rest}, 3 * ts.length ≤ n + 1 → ahead rest ≠ .kwElse →
      (operand (n + 1)).Reads (ts ++ rest) e rest) (hne : ts ≠ []) : Taken (.expr 6) ts e := by
  intro n level rest hn hk hl hf
  have hpos := List.length_pos_iff.2 hne
  obtain ⟨n, rfl⟩ : ∃ j, n = j + 1 := ⟨n - 1, by omega⟩
  exact .of_operand (h hn hf.2)

theorem taken_token {t : Token} (h : ∀ n rest, (operand (n + 1)).Reads (t :: rest) e rest) :
    Taken (.expr 6) [t] e :=
  taken_operand (fun _ _ => h _ _) (by simp)

theorem taken_ident : Taken (.expr 6) [⟨.ident, x⟩] (.ident x) := by
  refine taken_token fun n rest => ?_
  rw [operand]
  exact .of_next (reads_pure.2 ⟨rfl, rfl⟩)

theorem taken_call (hf : Taken (.expr 6) ts f) (hes : Taken (.list (.expr 0)) us es) :
    Taken (.expr 6) (ts ++ ⟨.lparen, w₁⟩ :: us ++ [⟨.rparen, w₂⟩]) (.call f es) := by
  intro n level rest hn hk hl hfol
  simp only [List.length_append, List.length_cons, List.length_nil] at hn
  obtain ⟨n, rfl⟩ : ∃ j, n = j + 1 := ⟨n - 1, by omega⟩
  have hf : Arrives (n + 1) level ts f (⟨.lparen, w₁⟩ :: (us ++ [⟨.rparen, w₂⟩]) ++ rest) :=
    hf (by omega) hk hl (follows_cons (by decide) (by decide))
  rw [List.append_assoc, List.cons_append]
  refine hf.step (by omega) (show level < 7 by omega) ?_
  rw [List.append_assoc, suffix]
  exact .of_bind (hes.args (by omega) (.inl rfl)) (reads_pure.2 ⟨rfl, rfl⟩)

theorem taken_index (hc : Taken (.expr 6) ts c) (hk : Taken (.expr 0) us v) :
    Taken (.expr 6) (ts ++ ⟨.lbracket, w₁⟩ :: us ++ [⟨.rbracket, w₂⟩]) (.index c v) := by
  intro n level rest hn hlk hl hfol
  simp only [List.length_append, List.length_cons, List.length_nil] at hn
  obtain ⟨n, rfl⟩ : ∃ j, n = j + 1 := ⟨n - 1, by omega⟩
  have hc : Arrives (n + 1) level ts c (⟨.lbracket, w₁⟩ :: (us ++ [⟨.rbracket, w₂⟩]) ++ rest) :=
    hc (by omega) hlk hl (follows_cons (by decide) (by decide))
  rw [List.append_assoc, List.cons_append]
  refine hc.step (by omega) (show level < 8 by omega) ?_
  rw [List.append_assoc, suffix]
  exact .of_bind (hk.reads_closed (by omega) (follows_cons (by decide) (by decide)))
    (.of_symbol (by decide) (reads_pure.2 ⟨rfl, rfl⟩))

theorem integerOf?_decimal (h : decimal w ≤ 0x7FFFFFFFFFFFFFFF) :
    integerOf? w = some (Int64.ofNat (decimal w)) := by
  simp only [integerOf?, ofDigits_toList]
  exact if_pos h

theorem taken_integer (h : decimal w ≤ 0x7FFFFFFFFFFFFFFF) :
    Taken (.expr 6) [⟨.int, w⟩] (.integer (Int64.ofNat (decimal w))) := by
  refine taken_token fun n rest => ?_
  rw [operand]
  refine .of_next ?_
  simp only [integerOf?_decimal h]
  exact reads_pure.2 ⟨rfl, rfl⟩

theorem taken_group (h : Taken (.expr 0) ts e) :
    Taken (.expr 6) (⟨.lparen, w₁⟩ :: ts ++ [⟨.rparen, w₂⟩]) e := by
  refine taken_operand (fun {n rest} hn _ => ?_) (by simp)
  simp only [List.length_append, List.length_cons, List.length_nil] at hn
  rw [List.append_assoc, List.cons_append, operand]
  exact .of_next (.of_bind (h.reads_closed (by omega) (follows_cons (by decide) (by decide)))
    (.of_symbol (by decide) (reads_pure.2 ⟨rfl, rfl⟩)))

theorem taken_array (h : Taken (.list (.expr 0)) ts es) :
    Taken (.expr 6) (⟨.lbracket, w₁⟩ :: ts ++ [⟨.rbracket, w₂⟩]) (.array es) := by
  refine taken_operand (fun {n rest} hn _ => ?_) (by simp)
  simp only [List.length_append, List.length_cons, List.length_nil] at hn
  rw [List.append_assoc, List.cons_append, operand]
  exact .of_next (.of_bind (h.args (by omega) (.inr rfl)) (reads_pure.2 ⟨rfl, rfl⟩))

theorem taken_hash {as : List (Expr × Expr)} (h : Taken (.list .entry) ts as) :
    Taken (.expr 6) (⟨.lbrace, w₁⟩ :: ts ++ [⟨.rbrace, w₂⟩]) (.hash as) := by
  refine taken_operand (fun {n rest} hn _ => ?_) (by simp)
  simp only [List.length_append, List.length_cons, List.length_nil] at hn
  rw [List.append_assoc, List.cons_append, operand]
  exact .of_next (.of_bind (h.entries (by omega)) (reads_pure.2 ⟨rfl, rfl⟩))

/-- A block with its opening brace is read off the tokens of the block. -/
theorem Taken.braces {α : Type} {g : Block → Parser α} {a : α} (h : Taken .block us b)
    (hn : 3 * us.length ≤ n) {mid : List Token} (hg : (g b).Reads mid a rest) :
    (symbol .lbrace >>= fun _ => block (stmt n) n >>= g).Reads (us ++ mid) a rest := by
  obtain ⟨w, us, rfl, h⟩ := h
  exact .of_symbol (by decide) (.of_bind (h hn) hg)

/-- A condition is read up to the parenthesis behind it, and then a block. -/
theorem Taken.guarded {α : Type} {g : Expr → Block → Parser α} {a : α} {mid : List Token}
    (hc : Taken (.expr 0) ts c) (hb : Taken .block us b) (hn : 3 * ts.length + 1 ≤ n)
    (hm : 3 * us.length ≤ n) (hg : (g c b).Reads mid a rest) :
    (expr n 0 >>= fun c => symbol .rparen >>= fun _ => symbol .lbrace >>= fun _ =>
      block (stmt n) n >>= g c).Reads (ts ++ ⟨.rparen, w⟩ :: (us ++ mid)) a rest := by
  have hf : Follows 0 (⟨.rparen, w⟩ :: (us ++ mid)) := follows_cons (by decide) (by decide)
  have hr : (expr n 0).Reads (ts ++ ⟨.rparen, w⟩ :: (us ++ mid)) c
      (⟨.rparen, w⟩ :: (us ++ mid)) := hc.reads_closed hn hf
  exact .of_bind hr (.of_symbol (by decide) (hb.braces hm hg))

theorem taken_ifThen (hc : Taken (.expr 0) ts c) (hb : Taken .block us b) {w₃ : String} :
    Taken (.expr 6) (⟨.kwIf, w₁⟩ :: ⟨.lparen, w₂⟩ :: ts ++ ⟨.rparen, w₃⟩ :: us)
      (.ifElse c b none) := by
  refine taken_operand (fun {n rest} hn hf => ?_) (by simp)
  simp only [List.length_append, List.length_cons] at hn
  simp only [List.cons_append, List.append_assoc]
  rw [operand]
  refine .of_next (.of_symbol (by decide) (hc.guarded hb (by omega) (by omega) ?_))
  exact .of_bind ((reads_accept (by decide)).2 (.inr ⟨rfl, hf, rfl⟩)) (reads_pure.2 ⟨rfl, rfl⟩)

theorem taken_ifElse (hc : Taken (.expr 0) ts c) (hb : Taken .block us b)
    (hd : Taken .block vs d) {w₃ w₄ : String} :
    Taken (.expr 6)
      (⟨.kwIf, w₁⟩ :: ⟨.lparen, w₂⟩ :: ts ++ ⟨.rparen, w₃⟩ :: us ++ ⟨.kwElse, w₄⟩ :: vs)
      (.ifElse c b (some d)) := by
  refine taken_operand (fun {n rest} hn _ => ?_) (by simp)
  simp only [List.length_append, List.length_cons] at hn
  simp only [List.cons_append, List.append_assoc]
  rw [operand]
  refine .of_next (.of_symbol (by decide) (hc.guarded hb (by omega) (by omega) ?_))
  refine .of_bind ((reads_accept (by decide)).2 (.inl ⟨rfl, w₄, rfl⟩)) ?_
  exact hd.braces (by omega) (reads_pure.2 ⟨rfl, rfl⟩)

theorem taken_forIn (he : Taken (.expr 0) ts e) (hb : Taken .block us b) {w₃ w₄ : String} :
    Taken (.expr 6)
      (⟨.kwFor, w₁⟩ :: ⟨.lparen, w₂⟩ :: ⟨.ident, x⟩ :: ⟨.kwIn, w₃⟩ :: ts ++ ⟨.rparen, w₄⟩ :: us)
      (.forIn x e b) := by
  refine taken_operand (fun {n rest} hn _ => ?_) (by simp)
  simp only [List.length_append, List.length_cons] at hn
  simp only [List.cons_append, List.append_assoc]
  rw [operand]
  refine .of_next (.of_symbol (by decide) (.of_bind (reads_name.2 rfl) ?_))
  refine .of_symbol (by decide) ?_
  exact he.guarded hb (by omega) (by omega) (reads_pure.2 ⟨rfl, rfl⟩)

theorem taken_whileDo (hc : Taken (.expr 0) ts c) (hb : Taken .block us b) {w₃ : String} :
    Taken (.expr 6) (⟨.kwWhile, w₁⟩ :: ⟨.lparen, w₂⟩ :: ts ++ ⟨.rparen, w₃⟩ :: us)
      (.whileDo c b) := by
  refine taken_operand (fun {n rest} hn _ => ?_) (by simp)
  simp only [List.length_append, List.length_cons] at hn
  simp only [List.cons_append, List.append_assoc]
  rw [operand]
  refine .of_next (.of_symbol (by decide) ?_)
  exact hc.guarded hb (by omega) (by omega) (reads_pure.2 ⟨rfl, rfl⟩)

theorem taken_function (hxs : Taken (.list .param) ts xs) (hb : Taken .block us b) {w₃ : String} :
    Taken (.expr 6) (⟨.kwFn, w₁⟩ :: ⟨.lparen, w₂⟩ :: ts ++ ⟨.rparen, w₃⟩ :: us)
      (.function xs b) := by
  refine taken_operand (fun {n rest} hn _ => ?_) (by simp)
  simp only [List.length_append, List.length_cons] at hn
  simp only [List.cons_append, List.append_assoc]
  rw [operand]
  refine .of_next (.of_symbol (by decide) (.of_bind (hxs.params (by omega)) ?_))
  exact hb.braces (by omega) (reads_pure.2 ⟨rfl, rfl⟩)

theorem taken_targetGroup (h : Taken .target ts x) :
    Taken .target (⟨.lparen, w₁⟩ :: ts ++ [⟨.rparen, w₂⟩]) x := by
  have hx : Taken (.expr 0) ts (.ident x) := fun hn _ hl hf => h hn hl (hf.mono (Nat.zero_le 8))
  intro n level rest hn hl hf
  exact taken_group hx hn (by omega) hl hf

/-! ## Statements -/

theorem taken_define (h : Taken (.expr 0) ts e) :
    Taken .stmt (⟨.kwLet, w₁⟩ :: ⟨.ident, x⟩ :: ⟨.assign, w₂⟩ :: ts) (.define x e) := by
  intro n mid rest hn he hf
  simp only [List.length_cons] at hn
  obtain ⟨n, rfl⟩ : ∃ j, n = j + 1 := ⟨n - 1, by omega⟩
  rw [stmt]
  refine .of_bind (reads_peek.2 ⟨rfl, rfl⟩) (.of_next (.of_bind (reads_name.2 rfl) ?_))
  refine .of_symbol (by decide) ?_
  exact .of_bind (h.reads_closed (by omega) (he.follows (by simp) (by simp) hf))
    (he.reads_semicolon (reads_pure.2 ⟨rfl, rfl⟩))

theorem taken_ret (h : Taken (.expr 0) ts e) : Taken .stmt (⟨.kwReturn, w⟩ :: ts) (.ret e) := by
  intro n mid rest hn he hf
  simp only [List.length_cons] at hn
  obtain ⟨n, rfl⟩ : ∃ j, n = j + 1 := ⟨n - 1, by omega⟩
  rw [stmt]
  refine .of_bind (reads_peek.2 ⟨rfl, rfl⟩) (.of_next ?_)
  exact .of_bind (h.reads_closed (by omega) (he.follows (by simp) (by simp) hf))
    (he.reads_semicolon (reads_pure.2 ⟨rfl, rfl⟩))

/-- A jump is written with its keyword alone. -/
theorem taken_brk : Taken .stmt [⟨.kwBreak, w⟩] .brk := by
  intro n mid rest hn he hf
  obtain ⟨n, rfl⟩ : ∃ j, n = j + 1 := ⟨n - 1, by omega⟩
  rw [stmt]
  refine .of_bind (reads_peek.2 ⟨rfl, rfl⟩) (.of_next ?_)
  exact he.reads_semicolon (reads_pure.2 ⟨rfl, rfl⟩)

theorem taken_cont : Taken .stmt [⟨.kwContinue, w⟩] .cont := by
  intro n mid rest hn he hf
  obtain ⟨n, rfl⟩ : ∃ j, n = j + 1 := ⟨n - 1, by omega⟩
  rw [stmt]
  refine .of_bind (reads_peek.2 ⟨rfl, rfl⟩) (.of_next ?_)
  exact he.reads_semicolon (reads_pure.2 ⟨rfl, rfl⟩)

theorem taken_eval (hd : Derives (.expr 0) ts e) (h : Taken (.expr 0) ts e) :
    Taken .stmt ts (.expr e) := by
  intro n mid rest hn he hf
  obtain ⟨n, rfl⟩ : ∃ j, n = j + 1 := ⟨n - 1, by omega⟩
  obtain ⟨⟨k, w⟩, us, rfl, -⟩ := hd.opens
  have hr : (expr n 0).Reads (⟨k, w⟩ :: us ++ mid) e mid :=
    h.reads_closed (by omega) (he.follows (by simp) (by simp) hf)
  rw [stmt]
  refine .of_bind (reads_peek.2 ⟨rfl, rfl⟩) ?_
  cases k with
  | kwLet | kwReturn | kwBreak | kwContinue =>
    exact absurd hr (not_reads_expr (by simp [leading]))
  | _ => exact .of_bind hr (he.reads_semicolon (reads_pure.2 ⟨rfl, rfl⟩))

/-! ## Blocks and programs -/

theorem ahead_of_opens (h : Opens ts) (hc : close ∈ closing) : ahead ts ≠ close := by
  obtain ⟨t, ts, rfl, ht⟩ := h
  intro hk
  rw [ahead_cons] at hk
  exact ht (hk ▸ hc)

theorem block_nil {p : Parser Stmt} : (block p (m + 1)).Reads (⟨.rbrace, w⟩ :: rest) [] rest :=
  .of_bind (reads_peek.2 ⟨rfl, rfl⟩) (.of_next (reads_pure.2 ⟨rfl, rfl⟩))

theorem block_cons {p : Parser Stmt} {mid : List Token} (hp : p.Honest)
    (ho : Opens ts) (hs : p.Reads ts s mid)
    (h : (block p m).Reads mid b rest) : (block p (m + 1)).Reads ts (s :: b) rest := by
  refine .of_bind (reads_peek.2 ⟨rfl, rfl⟩) ?_
  have hr : (recover p).Reads ts (some s) mid := (reads_recover hp).2 ⟨s, rfl, hs⟩
  split
  · next he => exact absurd he (ahead_of_opens ho (by decide))
  · next he => exact absurd he (ahead_of_opens ho (by decide))
  · exact .of_bind hr (.of_bind h (reads_pure.2 ⟨rfl, rfl⟩))

theorem program_cons {p : Parser Stmt} {mid : List Token} (hp : p.Honest)
    (ho : Opens ts) (hs : p.Reads ts s mid)
    (h : (program p m).Reads mid b rest) : (program p (m + 1)).Reads ts (s :: b) rest := by
  refine .of_bind (reads_peek.2 ⟨rfl, rfl⟩) ?_
  have hr : (recover p).Reads ts (some s) mid := (reads_recover hp).2 ⟨s, rfl, hs⟩
  split
  · next he => exact absurd he (ahead_of_opens ho (by decide))
  · exact .of_bind hr (.of_bind h (reads_pure.2 ⟨rfl, rfl⟩))

theorem taken_block (h : Taken .stmts ts b) :
    Taken .block (⟨.lbrace, w₁⟩ :: ts ++ [⟨.rbrace, w₂⟩]) b := by
  refine ⟨w₁, ts ++ [⟨.rbrace, w₂⟩], rfl, fun {n rest} hn => ?_⟩
  simp only [List.length_append, List.length_cons, List.length_nil] at hn
  rw [List.append_assoc]
  exact (h (by omega) (by omega)).1

theorem taken_stop : Taken .stmts [] [] := by
  intro n m hn hm
  obtain ⟨m, rfl⟩ : ∃ j, m = j + 1 := ⟨m - 1, by omega⟩
  exact ⟨block_nil, .of_bind (reads_peek.2 ⟨rfl, rfl⟩) (reads_pure.2 ⟨rfl, rfl⟩)⟩

theorem taken_closed (ho : Opens ts) (hs : Taken .stmt ts s) (h : Taken .stmts us b) :
    Taken .stmts (ts ++ ⟨.semicolon, w⟩ :: us) (s :: b) := by
  intro n m hn hm
  simp only [List.length_append, List.length_cons] at hn hm
  obtain ⟨m, rfl⟩ : ∃ j, m = j + 1 := ⟨m - 1, by omega⟩
  obtain ⟨hb, hp⟩ := h (n := n) (m := m) (by omega) (by omega)
  have hr : ∀ mid, (stmt n).Reads (ts ++ ⟨.semicolon, w⟩ :: mid) s mid :=
    fun mid => hs (by omega) (.inl ⟨w, rfl⟩) (by simp)
  constructor
  · intro w' rest
    rw [List.append_assoc]
    exact block_cons (honestAt n).stmt (ho.append _) (hr _) hb
  · exact program_cons (honestAt n).stmt (ho.append _) (hr _) hp

/-- The statement may stay open before the statements `us` and what ends them. -/
theorem ends_open (ho : MayStayOpen s us) (hu : us = [] ∨ Opens us)
    (hr : ahead rest = .rbrace ∨ rest = []) :
    Ends s (us ++ rest) (us ++ rest) ∧ ahead (us ++ rest) ≠ .kwElse := by
  obtain rfl | hu := hu
  · have hb : ahead rest ≠ .semicolon ∧ ahead rest ≠ .kwElse ∧ (ahead rest).binding ≤ 0 := by
      obtain hr | rfl := hr
      · simp [hr, Kind.binding]
      · decide
    exact ⟨.inr ⟨mayStayOpen_of_binding hb.2.2, hb.1, rfl⟩, hb.2.1⟩
  · have hk := hu.append rest
    obtain ⟨t, vs, rfl, -⟩ := hu
    exact ⟨.inr ⟨ho, ahead_of_opens hk (by decide), rfl⟩, ahead_of_opens hk (by decide)⟩

theorem taken_open (ht : Opens ts) (hu : us = [] ∨ Opens us) (ho : MayStayOpen s us)
    (hs : Taken .stmt ts s) (h : Taken .stmts us b) : Taken .stmts (ts ++ us) (s :: b) := by
  intro n m hn hm
  have hpos : 0 < ts.length := by
    obtain ⟨t, ts, rfl, -⟩ := ht
    exact Nat.succ_pos _
  simp only [List.length_append] at hn hm
  obtain ⟨m, rfl⟩ : ∃ j, m = j + 1 := ⟨m - 1, by omega⟩
  obtain ⟨hb, hp⟩ := h (n := n) (m := m) (by omega) (by omega)
  have hr : ∀ rest, ahead rest = .rbrace ∨ rest = [] →
      (stmt n).Reads (ts ++ (us ++ rest)) s (us ++ rest) := by
    intro rest hrest
    obtain ⟨he, hne⟩ := ends_open ho hu hrest
    exact hs (by omega) he hne
  constructor
  · intro w rest
    rw [List.append_assoc]
    exact block_cons (honestAt n).stmt (ht.append _) (hr _ (.inl rfl)) hb
  · have hs := hr [] (.inr rfl)
    rw [List.append_nil] at hs
    exact program_cons (honestAt n).stmt (ht.append _) hs hp

end

/-- Every phrase is read as its tree. -/
theorem taken {p : Phrase} {ts : List Token} {a : p.Tree} (h : Derives p ts a) : Taken p ts a := by
  induction h with
  | assign _ _ ihx ihe => exact taken_assign ihx ihe
  | binary op _ _ ihl ihr => exact taken_binary op ihl ihr
  | unary op _ ih => exact taken_unary op ih
  | call _ _ ihf ihes => exact taken_call ihf ihes
  | index _ _ ihc ihk => exact taken_index ihc ihk
  | tighter _ ih => exact taken_tighter ih
  | ident => exact taken_ident
  | string | true | false =>
    refine taken_token fun n rest => ?_
    rw [operand]
    exact .of_next (reads_pure.2 ⟨rfl, rfl⟩)
  | integer h => exact taken_integer h
  | group _ ih => exact taken_group ih
  | array _ ih => exact taken_array ih
  | hash _ ih => exact taken_hash ih
  | ifThen _ _ ihc ihb => exact taken_ifThen ihc ihb
  | ifElse _ _ _ ihc ihb ihd => exact taken_ifElse ihc ihb ihd
  | forIn _ _ ihe ihb => exact taken_forIn ihe ihb
  | whileDo _ _ ihc ihb => exact taken_whileDo ihc ihb
  | function _ _ ihxs ihb => exact taken_function ihxs ihb
  | targetName =>
    intro n level rest hn hl hf
    exact taken_ident hn (by omega) hl hf
  | targetGroup _ ih => exact taken_targetGroup ih
  | param => exact reads_name.2 rfl
  | entry _ _ ihk ihv => exact taken_entry ihk ihv
  | none =>
    intro item close wanted n rest w hc hm hi hr hn
    obtain ⟨n, rfl⟩ : ∃ j, n = j + 1 := ⟨n - 1, by omega⟩
    exact commaList_nil hc
  | last _ ih => exact taken_last ih
  | more _ _ ih ihs => exact taken_more ih ihs
  | block _ ih => exact taken_block ih
  | define _ ih => exact taken_define ih
  | ret _ ih => exact taken_ret ih
  | eval hd ih => exact taken_eval hd ih
  | brk => exact taken_brk
  | cont => exact taken_cont
  | stop => exact taken_stop
  | closed hs _ ih ihs => exact taken_closed hs.opens_stmt ih ihs
  | «open» hs ho hss ih ihs => exact taken_open hs.opens_stmt hss.mayBegin ho ih ihs

/-- An expression begins with one of the tokens that the parser reads as the beginning of one. -/
theorem leading_of_derives {k : Nat} {t : Token} {ts : List Token} {e : Expr}
    (h : Derives (.expr k) (t :: ts) e) : t.kind ∈ leading := by
  have ht : Taken (.expr 0) (t :: ts) e := taken (h.loosen (Nat.zero_le k))
  by_cases hk : t.kind ∈ leading
  · exact hk
  · have hr : (expr (3 * (t :: ts).length + 1) 0).Reads (t :: ts ++ []) e [] :=
      ht.reads_closed (Nat.le_refl _) ⟨Nat.le_refl 0, by decide⟩
    exact absurd hr (not_reads_expr hk)

end MonkeyLang.Parser

namespace MonkeyLang

open Grammar MonkeyLang.Parser

/-- Every program of the grammar is read without an error, as its tree. -/
theorem parseTokens_complete {ts : List Token} {p : Program} (h : Derives .stmts ts p) :
    parseTokens ts = ⟨p, []⟩ := by
  have hr := (taken h (n := 3 * ts.length + 3) (m := 3 * ts.length + 3) (by omega) (by omega)).2
  simp only [Reads, run] at hr
  simp only [parseTokens, hr]
  rfl

/-! ## Source texts -/

theorem Cursor.kind_ne_eof {n : Nat} {c : Cursor} : ∀ l ∈ c.lexemes n, l.token.kind ≠ .eof := by
  induction n generalizing c with
  | zero => simp [Cursor.lexemes]
  | succ n ih =>
    intro l hl
    simp only [Cursor.lexemes] at hl
    split at hl
    · cases hl
    · next hk =>
      obtain rfl | hl := List.mem_cons.1 hl
      · exact hk
      · exact ih l hl

/-- The end of the source is not a token of it. -/
theorem kind_ne_eof_of_mem_tokens {source : String} {t : Token} (ht : t ∈ tokens source) :
    t.kind ≠ .eof := by
  obtain ⟨l, hl, rfl⟩ := List.mem_map.1 ht
  exact Cursor.kind_ne_eof l hl

theorem derives_of_parse {source : String} (h : (parse source).errors = []) :
    Derives .stmts (tokens source) (parse source).program :=
  parseTokens_sound (fun _ => kind_ne_eof_of_mem_tokens) h

theorem parse_of_derives {source : String} {p : Program} (h : Derives .stmts (tokens source) p) :
    parse source = ⟨p, []⟩ :=
  parseTokens_complete h

/-- A source is read without an error just when its tokens form a program of the grammar, and what
is read is the tree of every derivation. -/
theorem parse_iff_derives (source : String) (p : Program) :
    (parse source).errors = [] ∧ (parse source).program = p ↔ Derives .stmts (tokens source) p := by
  constructor
  · intro ⟨he, hp⟩
    rw [← hp]
    exact derives_of_parse he
  · intro hd
    rw [parse_of_derives hd]
    exact ⟨rfl, rfl⟩

end MonkeyLang
