/-
Reading makes progress, also after errors. No parser goes back, and one of
expressions or statements takes a token if there is one, so the loops come to
the end of the source. Each error is charged to a token of its own: a failure
inside a construct to the token that the construct began with, an unclosed block
to its brace. As the tokens become fewer, so does what the parsers need of their
bound: from three for each token on, no bound makes a difference.
-/
import MonkeyLang.Proofs.Grammar.Completeness
import MonkeyLang.Proofs.Habits

namespace MonkeyLang

/-- What is left are the last of these tokens, and the others are as many as the errors, not
counting the one that a failure ends with. -/
structure Parsed.Covered {α : Type} (us : List Token) (r : Parsed α) : Prop where
  suffix : r.rest <:+ us
  failure : r.errors.length + r.rest.length ≤ us.length + 1
  success {a : α} : r.value = some a → r.errors.length + r.rest.length ≤ us.length

namespace Parser

/-! ## Tokens taken and errors met -/

/-- The parser never goes back, and the tokens that it takes cover its errors. -/
def Steady {α : Type} (p : Parser α) : Prop := ∀ ts, (p.run ts).Covered ts

/-- The parser takes a token if there is one, and the others cover its errors. -/
def Advances {α : Type} (p : Parser α) : Prop := ∀ ts, (p.run ts).Covered ts.tail

section

variable {α β : Type} {p : Parser α} {f : α → Parser β} {q : Parser Stmt} {ts us vs : List Token}
  {r : Parsed α} {n : Nat}

theorem covered_of_suffix (h : r.Covered us) (hs : us <:+ vs) : r.Covered vs := by
  have hl := hs.length_le
  refine ⟨h.suffix.trans hs, ?_, fun ha => ?_⟩
  · exact Nat.le_trans h.failure (Nat.succ_le_succ hl)
  · exact Nat.le_trans (h.success ha) hl

theorem Advances.steady (h : p.Advances) : p.Steady :=
  fun ts => covered_of_suffix (h ts) (List.tail_suffix ts)

/-- Looking at the next token takes nothing. -/
theorem peek_bind (f : Kind → Parser α) (ts : List Token) : (peek >>= f) ts = f (ahead ts) ts := by
  cases ts <;> rfl

theorem covered_peek {f : Kind → Parser α} (h : ∀ k, ahead ts = k → ((f k).run ts).Covered us) :
    ((peek >>= f).run ts).Covered us := by
  rw [run, peek_bind]
  exact h _ rfl

/-- What is read first may take part of the tokens; what is read then covers its errors with the
rest. -/
theorem covered_bind (hp : (p.run ts).Covered us) (hf : ∀ a, (f a).Steady) :
    ((p >>= f).run ts).Covered us := by
  simp only [run, bind, Parser.bind] at hp ⊢
  rcases hr : p ts with ⟨_ | a, errors, rest⟩
  · rw [hr] at hp
    exact ⟨hp.suffix, hp.failure, by simp⟩
  · rw [hr] at hp
    have hq := hf a rest
    have hle : errors.length + rest.length ≤ us.length := hp.success rfl
    refine ⟨hq.suffix.trans hp.suffix, ?_, fun ha => ?_⟩
    · have he := hq.failure
      simp only [run, List.length_append] at he ⊢
      omega
    · have he := hq.success ha
      simp only [run, List.length_append] at he ⊢
      omega

theorem steady_pure (a : α) : (pure a : Parser α).Steady :=
  fun ts => ⟨List.suffix_refl ts, by simp [run, pure, Parser.pure],
    by simp [run, pure, Parser.pure]⟩

theorem steady_fail (e : ParseError) : (fail e : Parser α).Steady :=
  fun ts => ⟨List.suffix_refl ts, by simp [run, fail, Nat.add_comm], fun h => nomatch h⟩

theorem steady_peek : peek.Steady := by
  intro ts
  cases ts <;> exact ⟨List.suffix_refl _, by simp [run, peek], by simp [run, peek]⟩

theorem advances_next : next.Advances := by
  intro ts
  cases ts <;> exact ⟨List.suffix_refl _, by simp [run, next], by simp [run, next]⟩

/-- A failure that is recovered from has taken a token, which covers its error. -/
theorem covered_recover (h : p.Advances) (hts : ahead ts ≠ .eof) :
    ((recover p).run ts).Covered ts := by
  cases ts with
  | nil => exact absurd rfl hts
  | cons t ts =>
    obtain ⟨hs, he, -⟩ := h (t :: ts)
    have hle : (p (t :: ts)).errors.length + (p (t :: ts)).rest.length ≤ (t :: ts).length := he
    exact ⟨hs.trans (List.suffix_cons t ts), Nat.le_succ_of_le hle, fun _ => hle⟩

/-- The error of an unclosed block is the one that the block fails with. -/
theorem steady_block (h : q.Advances) (n : Nat) : (block q n).Steady := by
  induction n with
  | zero => exact fun ts => covered_bind (steady_peek ts) fun _ => steady_fail _
  | succ n ih =>
    intro ts
    refine covered_peek fun k hk => ?_
    split
    · exact covered_bind (steady_peek ts) fun _ => steady_fail _
    · exact covered_bind (advances_next.steady ts) fun _ => steady_pure _
    · next hne _ =>
      exact covered_bind (covered_recover h (hk ▸ hne)) fun s ts =>
        covered_bind (ih ts) fun b => steady_pure _

theorem habit_steady : Habit Steady Advances where
  of_strict := Advances.steady
  pure := steady_pure
  fail := steady_fail
  peek := steady_peek
  next := advances_next
  bind hp hf ts := covered_bind (hp ts) hf
  bind_strict hp hf ts := covered_bind (hp ts) hf
  peek_strict hf ts := by
    rw [run, peek_bind]
    exact hf _ ts
  block := steady_block

theorem advances_stmt (n : Nat) : (stmt n).Advances := (habit_steady.holds n).stmt

theorem steady_expr (n level : Nat) : (expr n level).Steady :=
  ((habit_steady.holds n).expr level).steady

theorem steady_program (h : q.Advances) (n : Nat) : (program q n).Steady := by
  induction n with
  | zero => exact steady_pure _
  | succ n ih =>
    intro ts
    refine covered_peek fun k hk => ?_
    split
    · exact steady_pure _ ts
    · next hne =>
      exact covered_bind (covered_recover h (hk ▸ hne)) fun s ts =>
        covered_bind (ih ts) fun b => steady_pure _

theorem run_bind_pure (p : Parser α) (f : α → β) (ts : List Token) :
    (p >>= fun a => pure (f a)).run ts =
      ⟨(p.run ts).value.map f, (p.run ts).errors, (p.run ts).rest⟩ := by
  simp only [run, bind, Parser.bind]
  rcases p ts with ⟨_ | a, errors, rest⟩
  · rfl
  · simp only [pure, Parser.pure, List.append_nil, Option.map_some]

theorem run_recover_bind (p : Parser α) (f : Option α → Parser β) (ts : List Token) :
    (recover p >>= f).run ts =
      let r := (f (p.run ts).value).run (p.run ts).rest
      ⟨r.value, (p.run ts).errors ++ r.errors, r.rest⟩ := rfl

/-- A program before its end: the statement that comes next, if it can be read, and the program
behind it. -/
theorem program_succ (hts : ahead ts ≠ .eof) : (program q (n + 1)).run ts =
    let s := q.run ts
    let p := (program q n).run s.rest
    ⟨p.value.map (s.value.toList ++ ·), s.errors ++ p.errors, p.rest⟩ := by
  have hstep := run_recover_bind q (fun s => program q n >>= fun p => pure (s.toList ++ p)) ts
  rw [run_bind_pure] at hstep
  rw [← hstep, run, program, peek_bind]
  cases hk : ahead ts with
  | eof => exact absurd hk hts
  | _ => rfl

/-- A program never fails: what cannot be read is left out. -/
theorem program_value (q : Parser Stmt) (n : Nat) (ts : List Token) :
    ∃ p, ((program q n).run ts).value = some p := by
  induction n generalizing ts with
  | zero => exact ⟨[], rfl⟩
  | succ n ih =>
    by_cases hts : ahead ts = .eof
    · refine ⟨[], ?_⟩
      rw [run, program, peek_bind, hts]
      rfl
    · obtain ⟨p, hp⟩ := ih (q.run ts).rest
      exact ⟨(q.run ts).value.toList ++ p, by simp only [program_succ hts, hp, Option.map_some]⟩

/-- With a statement for each token at most, reading comes to the end of the source. -/
theorem program_rest (h : q.Advances) (heof : ∀ t ∈ ts, t.kind ≠ .eof) (hn : ts.length ≤ n) :
    ((program q n).run ts).rest = [] := by
  induction n generalizing ts with
  | zero => exact List.length_eq_zero_iff.1 (Nat.le_zero.1 hn)
  | succ n ih =>
    cases ts with
    | nil => rfl
    | cons t ts =>
      have hs : (q.run (t :: ts)).rest <:+ ts := (h (t :: ts)).suffix
      rw [program_succ (show ahead (t :: ts) ≠ .eof from heof t List.mem_cons_self)]
      exact ih (fun u hu => heof u (List.mem_cons_of_mem _ (hs.mem hu)))
        (Nat.le_trans hs.length_le (Nat.le_of_succ_le_succ hn))

end

/-! ## Bounds that make no difference -/

/-- The parsers do the same with at most `b` tokens. -/
def Agree {α : Type} (b : Nat) (p q : Parser α) : Prop := ∀ ts, ts.length ≤ b → p.run ts = q.run ts

section

variable {α β : Type} {b c k j level : Nat} {want : Kind} {p q : Parser α} {ts : List Token}

theorem agree_refl (p : Parser α) : p.Agree b p := fun _ _ => rfl

theorem Agree.mono (h : p.Agree b q) (hc : c ≤ b) : p.Agree c q :=
  fun ts hts => h ts (Nat.le_trans hts hc)

theorem run_bind_congr {f g : α → Parser β} (hp : p.run ts = q.run ts)
    (hf : ∀ a, (q.run ts).value = some a →
      (f a).run (q.run ts).rest = (g a).run (q.run ts).rest) :
    (p >>= f).run ts = (q >>= g).run ts := by
  simp only [run, bind, Parser.bind] at hp hf ⊢
  rw [hp]
  rcases hq : q ts with ⟨_ | a, errors, rest⟩
  · rfl
  · have hfa : f a rest = g a rest := by
      rw [hq] at hf
      exact hf a rfl
    simp only [hfa]

theorem Agree.bind {f g : α → Parser β} (hp : p.Agree b q) (hq : q.Steady)
    (hf : ∀ a, (f a).Agree b (g a)) : (p >>= f).Agree b (q >>= g) := fun ts hts =>
  run_bind_congr (hp ts hts) fun a _ => hf a _ (Nat.le_trans (hq ts).suffix.length_le hts)

theorem agree_peek {f g : Kind → Parser α} (h : ∀ k, (f k).Agree b (g k)) :
    (peek >>= f).Agree b (peek >>= g) :=
  (agree_refl peek).bind steady_peek h

/-- After a token there is one less. -/
theorem agree_next {f g : Token → Parser α}
    (hnil : (f ⟨.eof, ""⟩).run [] = (g ⟨.eof, ""⟩).run [])
    (h : ∀ c < b, ∀ t, (f t).Agree c (g t)) : (next >>= f).Agree b (next >>= g) := by
  intro ts hts
  refine run_bind_congr rfl fun t ht => ?_
  cases ts with
  | nil =>
    cases ht
    exact hnil
  | cons u us => exact h us.length hts t us (Nat.le_refl _)

theorem run_accept (want : Kind) (ts : List Token) : (accept want).run ts =
    if ahead ts = want then ⟨some true, [], ts.tail⟩ else ⟨some false, [], ts⟩ := by
  rw [run, accept, peek_bind]
  split
  · cases ts <;> rfl
  · rfl

/-- If the token is accepted there is one less. -/
theorem agree_accept {f g : Bool → Parser α} (hw : want ≠ .eof)
    (htrue : ∀ c < b, (f true).Agree c (g true)) (hfalse : (f false).Agree b (g false)) :
    (accept want >>= f).Agree b (accept want >>= g) := by
  intro ts hts
  refine run_bind_congr rfl fun t ht => ?_
  by_cases h : ahead ts = want
  · rw [run_accept, if_pos h] at ht ⊢
    cases ht
    cases ts with
    | nil => exact absurd h.symm hw
    | cons u us => exact htrue us.length hts us (Nat.le_refl _)
  · rw [run_accept, if_neg h] at ht ⊢
    cases ht
    exact hfalse ts hts

theorem agree_commaList (close want : Kind) (hc : close ≠ .eof) (hp : p.Agree b q)
    (hq : q.Steady) (hb : c ≤ b) (hk : c < k) (hj : c < j) :
    (commaList close want p k).Agree c (commaList close want q j) := by
  induction c using Nat.strongRecOn generalizing k j with
  | ind c ih =>
    obtain ⟨k, rfl⟩ : ∃ i, k = i + 1 := ⟨k - 1, by omega⟩
    obtain ⟨j, rfl⟩ : ∃ i, j = i + 1 := ⟨j - 1, by omega⟩
    refine agree_accept hc (fun _ _ => agree_refl _) ?_
    refine (hp.mono hb).bind hq fun a => agree_accept (by decide) (fun d hd => ?_) (agree_refl _)
    have hrest := ih d hd (k := k) (j := j) (by omega) (by omega) (by omega)
    exact hrest.bind (habit_steady.commaList hq j) fun _ => agree_refl _

theorem agree_climb {s s' : Expr → Kind → Parser Expr}
    (hs : ∀ c < b, ∀ e k, (s e k).Agree c (s' e k)) (hs' : ∀ e k, (s' e k).Steady) (hb : c ≤ b)
    (hk : c ≤ k) (hj : c ≤ j) (e : Expr) :
    (climb s level k e).Agree c (climb s' level j e) := by
  induction c generalizing k j e with
  | zero =>
    intro ts hts
    obtain rfl := List.length_eq_zero_iff.1 (Nat.le_zero.1 hts)
    cases k <;> cases j <;> rfl
  | succ c ih =>
    obtain ⟨k, rfl⟩ : ∃ i, k = i + 1 := ⟨k - 1, by omega⟩
    obtain ⟨j, rfl⟩ : ∃ i, j = i + 1 := ⟨j - 1, by omega⟩
    rw [climb, climb]
    refine agree_peek fun kind => ?_
    split
    · -- The operator's token is taken before its suffix is read.
      have hrest : ∀ d ≤ c, (s e kind >>= fun e => climb s level k e).Agree d
          (s' e kind >>= fun e => climb s' level j e) := fun d hd =>
        ((hs c hb e kind).mono hd).bind (hs' e kind) fun e =>
          (ih (by omega) (by omega) (by omega) e).mono hd
      exact agree_next (hrest 0 (Nat.zero_le c) [] (Nat.le_refl 0)) fun d hd _ =>
        hrest d (Nat.le_of_lt_succ hd)
    · exact agree_refl _

/-- The statement that is tried takes a token, read or not. -/
theorem agree_recover {p q : Parser Stmt} {f g : Option Stmt → Parser α} (hp : p.Agree b q)
    (hq : q.Advances) (hts : ahead ts ≠ .eof) (hb : ts.length ≤ b)
    (h : ∀ c < ts.length, ∀ s, (f s).Agree c (g s)) :
    (recover p >>= f).run ts = (recover q >>= g).run ts := by
  have hr : (recover p).run ts = (recover q).run ts := by
    simp only [run, recover]
    rw [show p ts = q ts from hp ts hb]
  refine run_bind_congr hr fun s _ => ?_
  cases ts with
  | nil => exact absurd rfl hts
  | cons t ts => exact h _ (Nat.lt_succ_of_le (hq (t :: ts)).suffix.length_le) s _ (Nat.le_refl _)

/-- A block of `c` tokens has at most so many statements. -/
theorem agree_block {p q : Parser Stmt} (hp : p.Agree b q) (hq : q.Advances) (hb : c ≤ b)
    (hk : c < k) (hj : c < j) : (block p k).Agree c (block q j) := by
  induction c using Nat.strongRecOn generalizing k j with
  | ind c ih =>
    obtain ⟨k, rfl⟩ : ∃ i, k = i + 1 := ⟨k - 1, by omega⟩
    obtain ⟨j, rfl⟩ : ∃ i, j = i + 1 := ⟨j - 1, by omega⟩
    intro ts hts
    rw [run, run, block, block, peek_bind, peek_bind]
    cases ha : ahead ts with
    | eof | rbrace => rfl
    | _ =>
      refine agree_recover hp hq (by simp [ha]) (by omega) fun d hd s => ?_
      have hrest := ih d (by omega) (k := k) (j := j) (by omega) (by omega) (by omega)
      exact hrest.bind (steady_block hq j) fun _ => agree_refl _

theorem agree_program {p q : Parser Stmt} (hp : p.Agree b q) (hq : q.Advances) (hb : c ≤ b)
    (hk : c ≤ k) (hj : c ≤ j) : (program p k).Agree c (program q j) := by
  induction c using Nat.strongRecOn generalizing k j with
  | ind c ih =>
    intro ts hts
    cases ts with
    | nil => cases k <;> cases j <;> rfl
    | cons t ts =>
      rw [List.length_cons] at hts
      obtain ⟨k, rfl⟩ : ∃ i, k = i + 1 := ⟨k - 1, by omega⟩
      obtain ⟨j, rfl⟩ : ∃ i, j = i + 1 := ⟨j - 1, by omega⟩
      rw [run, run, program, program, peek_bind, peek_bind]
      cases ha : ahead (t :: ts) with
      | eof => rfl
      | _ =>
        refine agree_recover hp hq (by simp [ha]) (by simp; omega) fun d hd s => ?_
        rw [List.length_cons] at hd
        have hrest := ih d (by omega) (k := k) (j := j) (by omega) (by omega) (by omega)
        exact hrest.bind (steady_program hq j) fun _ => agree_refl _

/-- With at most `b` tokens, no bound from here on makes a difference. -/
structure SettledAt (b : Nat) : Prop where
  operand {n m : Nat} : 3 * b + 1 ≤ n → 3 * b + 1 ≤ m → (operand n).Agree b (operand m)
  expr {n m : Nat} (level : Nat) : 3 * b + 2 ≤ n → 3 * b + 2 ≤ m →
    (expr n level).Agree b (expr m level)
  entry {n m : Nat} : 3 * b + 3 ≤ n → 3 * b + 3 ≤ m → (entry n).Agree b (entry m)
  suffix {n m : Nat} (left : Expr) (kind : Kind) : 3 * b + 3 ≤ n → 3 * b + 3 ≤ m →
    (suffix n left kind).Agree b (suffix m left kind)
  stmt {n m : Nat} : 3 * b + 3 ≤ n → 3 * b + 3 ≤ m → (stmt n).Agree b (stmt m)

end

section

variable {b c n m : Nat}

theorem SettledAt.braces {α : Type} {f g : Block → Parser α} (h : SettledAt c)
    (hn : 3 * c + 3 ≤ n) (hm : 3 * c + 3 ≤ m) (hf : ∀ b, (f b).Agree c (g b)) :
    (symbol .lbrace >>= fun _ => block (Parser.stmt n) n >>= f).Agree c
      (symbol .lbrace >>= fun _ => block (Parser.stmt m) m >>= g) :=
  (agree_refl _).bind (habit_steady.symbol _) fun _ =>
    (agree_block (h.stmt hn hm) (advances_stmt m) (Nat.le_refl c) (by omega) (by omega)).bind
      (steady_block (advances_stmt m) m) hf

theorem SettledAt.guarded {α : Type} {f g : Expr → Block → Parser α} (h : SettledAt c)
    (hn : 3 * c + 3 ≤ n) (hm : 3 * c + 3 ≤ m) (hf : ∀ e b, (f e b).Agree c (g e b)) :
    (Parser.expr n 0 >>= fun e => symbol .rparen >>= fun _ => symbol .lbrace >>= fun _ =>
      block (Parser.stmt n) n >>= f e).Agree c
      (Parser.expr m 0 >>= fun e => symbol .rparen >>= fun _ => symbol .lbrace >>= fun _ =>
        block (Parser.stmt m) m >>= g e) :=
  (h.expr 0 (by omega) (by omega)).bind (steady_expr m 0) fun e =>
    (agree_refl _).bind (habit_steady.symbol _) fun _ => h.braces hn hm (hf e)

theorem agree_operand (h : ∀ c < b, SettledAt c) (hn : 3 * b + 1 ≤ n) (hm : 3 * b + 1 ≤ m) :
    (operand n).Agree b (operand m) := by
  obtain ⟨n, rfl⟩ : ∃ i, n = i + 1 := ⟨n - 1, by omega⟩
  obtain ⟨m, rfl⟩ : ∃ i, m = i + 1 := ⟨m - 1, by omega⟩
  rw [operand, operand]
  refine agree_next rfl fun c hc t => ?_
  have hn : 3 * c + 3 ≤ n := by omega
  have hm : 3 * c + 3 ≤ m := by omega
  have hexpr (level : Nat) : (expr n level).Agree c (expr m level) :=
    (h c hc).expr level (by omega) (by omega)
  have hsymbol (k : Kind) : (symbol k).Steady := habit_steady.symbol k
  cases t.kind with
  | bang | minus => exact (hexpr _).bind (steady_expr m _) fun _ => agree_refl _
  | lparen =>
    exact (hexpr 0).bind (steady_expr m 0) fun _ => agree_refl _
  | lbracket =>
    have hitems := agree_commaList (k := n) (j := m) .rbracket .rbracket
      (by decide) (hexpr 0) (steady_expr m 0) (Nat.le_refl c) (by omega) (by omega)
    exact hitems.bind (habit_steady.commaList (steady_expr m 0) m) fun _ => agree_refl _
  | lbrace =>
    have hentry := ((habit_steady.holds m).entry).steady
    have hitems := agree_commaList (k := n) (j := m) .rbrace .comma
      (by decide) ((h c hc).entry hn hm) hentry (Nat.le_refl c) (by omega) (by omega)
    exact hitems.bind (habit_steady.commaList hentry m) fun _ => agree_refl _
  | kwIf =>
    refine (agree_refl _).bind (hsymbol _) fun _ => (h c hc).guarded hn hm fun e b => ?_
    refine (agree_refl _).bind (habit_steady.accept _) fun els => ?_
    cases els with
    | true => exact (h c hc).braces hn hm fun _ => agree_refl _
    | false => exact agree_refl _
  | kwFor =>
    exact (agree_refl _).bind (hsymbol _) fun _ => (agree_refl _).bind habit_steady.name fun x =>
      (agree_refl _).bind (hsymbol _) fun _ => (h c hc).guarded hn hm fun _ _ => agree_refl _
  | kwWhile =>
    exact (agree_refl _).bind (hsymbol _) fun _ => (h c hc).guarded hn hm fun _ _ => agree_refl _
  | kwFn =>
    have hparams := agree_commaList (k := n) (j := m) .rparen .rparen
      (by decide) (agree_refl name) habit_steady.name (Nat.le_refl c) (by omega) (by omega)
    exact (agree_refl _).bind (hsymbol _) fun _ =>
      hparams.bind (habit_steady.commaList habit_steady.name m) fun xs =>
        (h c hc).braces hn hm fun _ => agree_refl _
  | _ => exact agree_refl _

theorem agree_expr (h : ∀ c < b, SettledAt c) (level : Nat) (hn : 3 * b + 2 ≤ n)
    (hm : 3 * b + 2 ≤ m) : (expr n level).Agree b (expr m level) := by
  obtain ⟨n, rfl⟩ : ∃ i, n = i + 1 := ⟨n - 1, by omega⟩
  obtain ⟨m, rfl⟩ : ∃ i, m = i + 1 := ⟨m - 1, by omega⟩
  have hs := habit_steady.holds m
  rw [expr, expr]
  refine (agree_operand h (by omega) (by omega)).bind hs.operand.steady fun e => ?_
  exact agree_climb (fun c hc e k => (h c hc).suffix e k (by omega) (by omega)) hs.suffix
    (Nat.le_refl b) (by omega) (by omega) e

theorem agree_entry (h : ∀ c < b, SettledAt c) (hn : 3 * b + 3 ≤ n) (hm : 3 * b + 3 ≤ m) :
    (entry n).Agree b (entry m) := by
  obtain ⟨n, rfl⟩ : ∃ i, n = i + 1 := ⟨n - 1, by omega⟩
  obtain ⟨m, rfl⟩ : ∃ i, m = i + 1 := ⟨m - 1, by omega⟩
  have hexpr := agree_expr h (n := n) (m := m) 0 (by omega) (by omega)
  rw [entry, entry]
  exact hexpr.bind (steady_expr m 0) fun _ => (agree_refl _).bind (habit_steady.symbol _) fun _ =>
    hexpr.bind (steady_expr m 0) fun _ => agree_refl _

theorem agree_suffix (h : ∀ c < b, SettledAt c) (left : Expr) (kind : Kind) (hn : 3 * b + 3 ≤ n)
    (hm : 3 * b + 3 ≤ m) : (suffix n left kind).Agree b (suffix m left kind) := by
  obtain ⟨n, rfl⟩ : ∃ i, n = i + 1 := ⟨n - 1, by omega⟩
  obtain ⟨m, rfl⟩ : ∃ i, m = i + 1 := ⟨m - 1, by omega⟩
  have hexpr (level : Nat) : (expr n level).Agree b (expr m level) :=
    agree_expr h level (by omega) (by omega)
  unfold suffix
  split
  · have hitems := agree_commaList (k := n) (j := m) .rparen .rparen
      (by decide) (hexpr 0) (steady_expr m 0) (Nat.le_refl b) (by omega) (by omega)
    exact hitems.bind (habit_steady.commaList (steady_expr m 0) m) fun _ => agree_refl _
  · exact (hexpr 0).bind (steady_expr m 0) fun _ => agree_refl _
  · split
    · exact (hexpr 0).bind (steady_expr m 0) fun _ => agree_refl _
    · exact agree_refl _
  · split
    · exact (hexpr _).bind (steady_expr m _) fun _ => agree_refl _
    · exact agree_refl _

theorem agree_stmt (h : ∀ c < b, SettledAt c) (hn : 3 * b + 3 ≤ n) (hm : 3 * b + 3 ≤ m) :
    (stmt n).Agree b (stmt m) := by
  obtain ⟨n, rfl⟩ : ∃ i, n = i + 1 := ⟨n - 1, by omega⟩
  obtain ⟨m, rfl⟩ : ∃ i, m = i + 1 := ⟨m - 1, by omega⟩
  have hvalue (f : Expr → Parser Stmt) : (expr n 0 >>= f).Agree b (expr m 0 >>= f) :=
    (agree_expr h 0 (by omega) (by omega)).bind (steady_expr m 0) fun _ => agree_refl _
  have htake {α : Type} {f g : Token → Parser α} (hf : ∀ t, (f t).Agree b (g t)) :
      (next >>= f).Agree b (next >>= g) := (agree_refl _).bind advances_next.steady hf
  rw [stmt, stmt]
  refine agree_peek fun k => ?_
  split
  · exact htake fun _ => (agree_refl _).bind habit_steady.name fun _ =>
      (agree_refl _).bind (habit_steady.symbol _) fun _ => hvalue _
  · exact htake fun _ => hvalue _
  · exact agree_refl _
  · exact agree_refl _
  · exact hvalue _

theorem settledAt (b : Nat) : SettledAt b := by
  induction b using Nat.strongRecOn with
  | ind b ih =>
    exact
      { operand := agree_operand ih
        expr := agree_expr ih
        entry := agree_entry ih
        suffix := agree_suffix ih
        stmt := agree_stmt ih }

end

/-! ## Source texts -/

/-- How a parser with a bound behaves on all tokens, however malformed: with three for each token
the bound makes no difference, at least so many of the tokens are taken, and there is no failure
without an error. -/
structure Orderly {α : Type} (least : Nat) (p : Nat → Parser α) : Prop where
  settles {ts : List Token} {n m : Nat} : 3 * ts.length + 3 ≤ n → 3 * ts.length + 3 ≤ m →
    (p n).run ts = (p m).run ts
  forward (n : Nat) (ts : List Token) : ((p n).run ts).rest <:+ ts.drop least
  honest (n : Nat) (ts : List Token) : ((p n).run ts).value = none → ((p n).run ts).errors ≠ []

theorem orderly_stmt : Orderly 1 stmt where
  settles hn hm := (settledAt _).stmt hn hm _ (Nat.le_refl _)
  forward n ts := List.drop_one ▸ (advances_stmt n ts).suffix
  honest n := (honestAt n).stmt

theorem orderly_expr (level : Nat) : Orderly 1 (expr · level) where
  settles hn hm := (settledAt _).expr level (by omega) (by omega) _ (Nat.le_refl _)
  forward n ts := List.drop_one ▸ ((habit_steady.holds n).expr level ts).suffix
  honest n := (honestAt n).expr level

theorem orderly_block : Orderly 0 fun n => block (stmt n) n where
  settles {_ _ m} hn hm := agree_block ((settledAt _).stmt hn hm) (advances_stmt m) (Nat.le_refl _)
    (by omega) (by omega) _ (Nat.le_refl _)
  forward n ts := (steady_block (advances_stmt n) n ts).suffix
  honest n := honest_block (honestAt n).stmt n

/-- A program leaves nothing unread, and what is read does not depend on the bounds. -/
theorem program_settles {ts : List Token} {n m : Nat} (heof : ∀ t ∈ ts, t.kind ≠ .eof)
    (hn : 3 * ts.length + 3 ≤ n) (hm : ts.length ≤ m) : (program (stmt n) m).run ts =
      ⟨some (parseTokens ts).program, (parseTokens ts).errors, []⟩ := by
  have hstmt : (stmt n).Agree ts.length (stmt (3 * ts.length + 3)) :=
    (settledAt _).stmt hn (Nat.le_refl _)
  have hsame : (program (stmt n) m).run ts =
      (program (stmt (3 * ts.length + 3)) (3 * ts.length + 3)).run ts :=
    agree_program hstmt (advances_stmt _) (Nat.le_refl _) hm (by omega) ts (Nat.le_refl _)
  have hrest := program_rest (advances_stmt (3 * ts.length + 3)) heof
    (show ts.length ≤ 3 * ts.length + 3 by omega)
  obtain ⟨p, hp⟩ := program_value (stmt (3 * ts.length + 3)) (3 * ts.length + 3) ts
  rcases hr : (program (stmt (3 * ts.length + 3)) (3 * ts.length + 3)).run ts with ⟨_, errors, rest⟩
  rw [hr] at hsame hp hrest
  obtain rfl : _ = some p := hp
  obtain rfl : rest = [] := hrest
  rw [run] at hr
  simp only [hsame, parseTokens, hr, Option.getD_some]

end Parser

open MonkeyLang.Parser

end MonkeyLang
