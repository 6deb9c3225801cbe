/-
What is read without an error is a phrase of the grammar: if reading an
expression or a statement gives a tree and meets no error, then the tokens it
took derive that tree. The loop over operators keeps the invariant `Held`: what
has been read so far can stand to the left of the operator that comes next.
-/
import MonkeyLang.Program.Parser
import MonkeyLang.Proofs.Grammar
import MonkeyLang.Proofs.Habits
import MonkeyLang.Proofs.Reads

namespace MonkeyLang.Parser

open Grammar

/-! ## No failure without an error -/

theorem honest_block {p : Parser Stmt} (hp : p.Honest) : ∀ n, (block p n).Honest
  | 0 => honest_unexpected
  | n + 1 => by
    refine honest_peek.bind fun k => ?_
    split
    · exact honest_unexpected
    · exact honest_next.bind fun _ => honest_pure
    · exact honest_recover.bind fun _ => (honest_block hp n).bind fun _ => honest_pure

theorem honest_program {p : Parser Stmt} (hp : p.Honest) : ∀ n, (program p n).Honest
  | 0 => honest_pure
  | n + 1 => by
    refine honest_peek.bind fun k => ?_
    split
    · exact honest_pure
    · exact honest_recover.bind fun _ => (honest_program hp n).bind fun _ => honest_pure

theorem habit_honest : Habit Honest Honest where
  of_strict := id
  pure _ := honest_pure
  fail _ := honest_fail
  peek := honest_peek
  next := honest_next
  bind := Honest.bind
  bind_strict := Honest.bind
  peek_strict := honest_peek.bind
  block := honest_block

/-- None of the parsers with the bound `n` fails without an error. -/
structure HonestAt (n : Nat) : Prop where
  expr : ∀ level, (expr n level).Honest
  operand : (operand n).Honest
  entry : (entry n).Honest
  suffix : ∀ left kind, (suffix n left kind).Honest
  stmt : (stmt n).Honest

theorem honestAt (n : Nat) : HonestAt n :=
  have h := habit_honest.holds n
  ⟨h.expr, h.operand, h.entry, h.suffix, h.stmt⟩

/-! ## Lists and blocks -/

/-- The phrase `p` with the tree `a` stands in front of `rest`. -/
def Fronts (p : Phrase) (ts : List Token) (a : p.Tree) (rest : List Token) : Prop :=
  ∃ us, ts = us ++ rest ∧ Derives p us a

theorem commaList_sound {p : Phrase} {item : Parser p.Tree} {close wanted : Kind} {bound : Nat}
    (hc : close ≠ .eof) (hi : ∀ {ts a rest}, ts.length ≤ bound → item.Reads ts a rest →
      Fronts p ts a rest) {n : Nat} {ts rest : List Token} {as : List p.Tree}
    (hb : ts.length ≤ bound) (h : (commaList close wanted item n).Reads ts as rest) :
    ∃ us w, ts = us ++ ⟨close, w⟩ :: rest ∧ Derives (.list p) us as := by
  induction n generalizing ts as with
  | zero => simp [commaList] at h
  | succ n ih =>
    simp only [commaList, reads_bind, reads_accept hc] at h
    obtain ⟨_, _, ⟨rfl, w, rfl⟩ | ⟨rfl, -, rfl⟩, h⟩ := h
    · obtain ⟨rfl, rfl⟩ := reads_pure.1 h
      exact ⟨[], w, rfl, .none⟩
    simp only [Bool.false_eq_true, if_false, reads_bind] at h
    obtain ⟨a, _, hr, _, _, hcomma, h⟩ := h
    obtain ⟨us, rfl, ha⟩ := hi hb hr
    obtain ⟨rfl, w, rfl⟩ | ⟨rfl, -, rfl⟩ := (reads_accept (by decide)).1 hcomma
    · simp only [if_true, reads_bind, reads_pure] at h
      obtain ⟨as, _, h, rfl, rfl⟩ := h
      obtain ⟨vs, v, rfl, hs⟩ := ih (by simp at hb; omega) h
      exact ⟨us ++ ⟨.comma, w⟩ :: vs, v, by simp, .more ha hs⟩
    · simp only [Bool.false_eq_true, if_false, reads_bind, reads_accept hc] at h
      obtain ⟨_, _, ⟨rfl, w, rfl⟩ | ⟨rfl, -, -⟩, h⟩ := h
      · obtain ⟨rfl, rfl⟩ := reads_pure.1 h
        exact ⟨us, w, rfl, .last ha⟩
      · exact absurd h not_reads_unexpected

/-- The statement ends before `ts`, of which `rest` is left once its semicolon is taken off. -/
def Ends (s : Stmt) (ts rest : List Token) : Prop :=
  (∃ w, ts = ⟨.semicolon, w⟩ :: rest) ∨
    (MayStayOpen s ts ∧ ahead ts ≠ .semicolon ∧ rest = ts)

theorem MayStayOpen.of_append {s : Stmt} {us vs : List Token} (h : MayStayOpen s (us ++ vs)) :
    MayStayOpen s us := by
  cases us with
  | nil => exact .inr (.inr fun t ht => nomatch ht)
  | cons t us => exact h

theorem not_mem_continuing {k : Kind} : k ∉ continuing ↔ k.binding = 0 := by
  cases k <;> decide

theorem mayStayOpen_of_binding {s : Stmt} {ts : List Token} (h : (ahead ts).binding ≤ 0) :
    MayStayOpen s ts := by
  cases ts with
  | nil => exact .inr (.inr fun t ht => nomatch ht)
  | cons t ts =>
    refine .inr (.inr fun u hu => ?_)
    obtain rfl : t = u := by simpa using hu
    exact not_mem_continuing.2 (Nat.le_zero.1 h)

/-- What a parser of statements takes off is a statement, and its end. -/
def SoundStmt (p : Parser Stmt) (bound : Nat) : Prop :=
  ∀ {ts s rest}, ts.length ≤ bound → p.Reads ts s rest →
    ∃ us mid, ts = us ++ mid ∧ Derives .stmt us s ∧ Ends s mid rest

/-- A statement in front of statements, if what ends it ends there. -/
theorem Ends.stmts {us vs ws : List Token} {s : Stmt} {ss : List Stmt} (rest : List Token)
    (h : Ends s vs (ws ++ rest)) (hs : Derives .stmt us s) (hss : Derives .stmts ws ss) :
    ∃ zs, us ++ vs = zs ++ rest ∧ Derives .stmts zs (s :: ss) := by
  obtain ⟨w, rfl⟩ | ⟨ho, -, rfl⟩ := h
  · exact ⟨us ++ ⟨.semicolon, w⟩ :: ws, by simp, .closed hs hss⟩
  · exact ⟨us ++ ws, by simp, .open hs (MayStayOpen.of_append ho) hss⟩

theorem Ends.length_le {s : Stmt} {ts rest : List Token} (h : Ends s ts rest) :
    rest.length ≤ ts.length := by
  obtain ⟨w, rfl⟩ | ⟨-, -, rfl⟩ := h <;> simp

theorem Ends.mem {s : Stmt} {ts rest : List Token} (h : Ends s ts rest) {t : Token}
    (ht : t ∈ rest) : t ∈ ts := by
  obtain ⟨w, rfl⟩ | ⟨-, -, rfl⟩ := h
  · exact List.mem_cons_of_mem _ ht
  · exact ht

theorem block_sound {p : Parser Stmt} {bound n : Nat} (hh : p.Honest) (hp : SoundStmt p bound)
    {ts rest : List Token} {b : Block} (hb : ts.length ≤ bound)
    (h : (block p n).Reads ts b rest) :
    ∃ us w, ts = us ++ ⟨.rbrace, w⟩ :: rest ∧ Derives .stmts us b := by
  induction n generalizing ts b with
  | zero => simp [block] at h
  | succ n ih =>
    simp only [block, reads_bind, reads_peek] at h
    obtain ⟨_, _, ⟨rfl, rfl⟩, h⟩ := h
    split at h
    · exact absurd h not_reads_unexpected
    · rename_i hk
      simp only [reads_bind, reads_pure] at h
      obtain ⟨⟨k, w⟩, _, h, rfl, rfl⟩ := h
      rcases reads_next.1 h with rfl | ⟨rfl, -⟩
      · cases hk
        exact ⟨[], w, rfl, .stop⟩
      · cases hk
    · simp only [reads_bind, reads_recover hh, reads_pure] at h
      obtain ⟨_, _, ⟨s, rfl, hr⟩, b, _, h, rfl, rfl⟩ := h
      obtain ⟨us, mid, rfl, hs, he⟩ := hp hb hr
      have hle := he.length_le
      obtain ⟨vs, w, rfl, hss⟩ := ih (by simp at hb; omega) h
      obtain ⟨zs, hz, hd⟩ := he.stmts _ hs hss
      exact ⟨zs, w, hz, hd⟩

theorem program_sound {p : Parser Stmt} {bound n : Nat} (hh : p.Honest) (hp : SoundStmt p bound)
    {ts rest : List Token} {ss : Program} (hb : ts.length ≤ bound) (hn : ts.length ≤ n)
    (heof : ∀ t ∈ ts, t.kind ≠ .eof) (h : (program p n).Reads ts ss rest) :
    Derives .stmts ts ss := by
  induction n generalizing ts ss with
  | zero =>
    obtain rfl := List.length_eq_zero_iff.1 (Nat.le_zero.1 hn)
    obtain ⟨rfl, rfl⟩ := reads_pure.1 h
    exact .stop
  | succ n ih =>
    simp only [program, reads_bind, reads_peek] at h
    obtain ⟨_, _, ⟨rfl, rfl⟩, h⟩ := h
    split at h
    · rename_i hk
      obtain ⟨rfl, rfl⟩ := reads_pure.1 h
      cases rest with
      | nil => exact .stop
      | cons t ts => exact absurd hk (heof t List.mem_cons_self)
    · simp only [reads_bind, reads_recover hh, reads_pure] at h
      obtain ⟨_, _, ⟨s, rfl, hr⟩, ss, _, h, rfl, rfl⟩ := h
      obtain ⟨us, mid, rfl, hs, he⟩ := hp hb hr
      have hle := he.length_le
      obtain ⟨t, us', rfl, -⟩ := hs.opens_stmt
      have hss := ih (by simp at hb; omega) (by simp at hn; omega)
        (fun t ht => heof t (List.mem_append_right _ (he.mem ht))) h
      obtain ⟨zs, hz, hd⟩ := Ends.stmts [] (by simpa using he) hs hss
      rwa [hz, List.append_nil]

/-! ## Expressions and statements -/

/-- Between operators: the tokens `us` were read as `e`, which may stand where an expression above
`level` is asked for, and to the left of the operator that comes next. -/
structure Held (level : Nat) (us : List Token) (e : Expr) (next : Kind) : Prop where
  here : Derives (.expr (min level 5)) us e
  left : level < next.binding → Derives (.expr (min (next.binding - 1) 6)) us e

/-- The parsers with the bound `n` read only phrases, from tokens that the bound is high enough
for. -/
structure SoundAt (n : Nat) : Prop where
  expr : ∀ {level ts e rest}, level ≤ 6 → 3 * ts.length ≤ n → (expr n level).Reads ts e rest →
    Fronts (.expr (min level 5)) ts e rest ∧ (ahead rest).binding ≤ level
  operand : ∀ {ts e rest}, 3 * ts.length ≤ n + 1 → (operand n).Reads ts e rest →
    ∃ us, ts = us ++ rest ∧ Held 6 us e (ahead rest)
  entry : ∀ {ts a rest}, 3 * ts.length + 1 ≤ n → (entry n).Reads ts a rest →
    Fronts .entry ts a rest
  suffix : ∀ {us left t ts e rest}, 0 < t.kind.binding → 3 * ts.length + 1 ≤ n →
    Derives (.expr (min (t.kind.binding - 1) 6)) us left →
    (suffix n left t.kind).Reads ts e rest →
    ∃ vs, ts = vs ++ rest ∧ Derives (.expr (min (t.kind.binding - 1) 6)) (us ++ t :: vs) e ∧
      ((ahead rest).binding ≤ t.kind.binding ∨ 7 ≤ t.kind.binding)
  stmt : ∀ {ts s rest}, 3 * ts.length + 1 ≤ n → (stmt n).Reads ts s rest →
    ∃ us mid, ts = us ++ mid ∧ Derives .stmt us s ∧ Ends s mid rest

theorem SoundAt.zero : SoundAt 0 where
  expr _ _ h := absurd h (by simp [Parser.expr])
  operand _ h := absurd h (by simp [Parser.operand])
  entry _ h := absurd h (by simp [Parser.entry])
  suffix _ _ _ h := absurd h (by simp [Parser.suffix])
  stmt _ h := absurd h (by simp [Parser.stmt])

/-- An expression keeps its place to the left of looser operators. -/
theorem Held.of_derives {level b : Nat} {us : List Token} {e : Expr} {next : Kind}
    (h : Derives (.expr (min (b - 1) 6)) us e) (hl : level < b) (hn : next.binding ≤ b ∨ 7 ≤ b) :
    Held level us e next :=
  ⟨h.loosen (by omega), fun _ => h.loosen (by omega)⟩

theorem climb_sound {n level : Nat} (h : SoundAt n) (hl : level ≤ 6) {m : Nat}
    {us ts rest : List Token} {left e : Expr} (hn : 3 * ts.length ≤ n + 1) (hm : ts.length ≤ m)
    (hleft : Held level us left (ahead ts)) (hr : (climb (suffix n) level m left).Reads ts e rest) :
    ∃ vs, ts = vs ++ rest ∧ Derives (.expr (min level 5)) (us ++ vs) e ∧
      (ahead rest).binding ≤ level := by
  induction m generalizing us ts left with
  | zero =>
    obtain rfl := List.length_eq_zero_iff.1 (Nat.le_zero.1 hm)
    obtain ⟨rfl, rfl⟩ := reads_pure.1 hr
    exact ⟨[], rfl, by simpa using hleft.here, Nat.zero_le _⟩
  | succ m ih =>
    simp only [climb, reads_bind, reads_peek] at hr
    obtain ⟨_, _, ⟨rfl, rfl⟩, hr⟩ := hr
    split at hr
    · rename_i hk
      simp only [reads_bind] at hr
      obtain ⟨t, mid, ht, e', _, hs, hr⟩ := hr
      rcases reads_next.1 ht with rfl | ⟨rfl, -⟩
      · simp only [ahead_cons] at hk hs hleft
        simp only [List.length_cons] at hn hm
        obtain ⟨vs, rfl, hd, hb⟩ := h.suffix (by omega) (by omega) (hleft.left hk) hs
        simp only [List.length_append] at hn hm
        obtain ⟨zs, rfl, hd, hb⟩ := ih (by omega) (by omega) (.of_derives hd hk hb) hr
        exact ⟨t :: vs ++ zs, by simp, by simpa using hd, hb⟩
      · cases hk
    · rename_i hk
      obtain ⟨rfl, rfl⟩ := reads_pure.1 hr
      exact ⟨[], rfl, by simpa using hleft.here, Nat.not_lt.1 hk⟩

theorem SoundAt.expr_succ {n level : Nat} (h : SoundAt n) {ts rest : List Token} {e : Expr}
    (hl : level ≤ 6) (hn : 3 * ts.length ≤ n + 1)
    (hr : (Parser.expr (n + 1) level).Reads ts e rest) :
    Fronts (.expr (min level 5)) ts e rest ∧ (ahead rest).binding ≤ level := by
  simp only [Parser.expr, reads_bind] at hr
  obtain ⟨left, mid, ho, hc⟩ := hr
  obtain ⟨us, rfl, hheld⟩ := h.operand hn ho
  obtain ⟨t, us, rfl, -⟩ := hheld.here.opens
  simp only [List.length_append, List.length_cons] at hn
  have hleft : Held level (t :: us) left (ahead mid) :=
    ⟨hheld.here.loosen (by omega), fun _ => ?_⟩
  · obtain ⟨vs, rfl, hd, hb⟩ := climb_sound h hl (by omega) (by omega) hleft hc
    exact ⟨⟨t :: us ++ vs, by simp, hd⟩, hb⟩
  · by_cases hb : 6 < (ahead mid).binding
    · exact (hheld.left hb).loosen (by omega)
    · exact hheld.here.loosen (by omega)

/-- An operand of the tightest tier may stand to the left of every operator. -/
theorem Held.of_operand {us : List Token} {e : Expr} {next : Kind} (h : Derives (.expr 6) us e) :
    Held 6 us e next :=
  ⟨h.loosen (by omega), fun _ => h.loosen (by omega)⟩

/-- A block with its braces. -/
theorem SoundAt.braces {n : Nat} (h : SoundAt n) {ts rest : List Token} {b : Block} (w : String)
    (hn : 3 * ts.length < n) (hb : (block (Parser.stmt n) n).Reads ts b rest) :
    Fronts .block (⟨.lbrace, w⟩ :: ts) b rest := by
  obtain ⟨us, w', rfl, hd⟩ := block_sound (honestAt n).stmt
    (fun hle hr => h.stmt (by omega) hr) (Nat.le_refl _) hb
  exact ⟨⟨.lbrace, w⟩ :: us ++ [⟨.rbrace, w'⟩], by simp, .block hd⟩

/-- A condition up to the parenthesis behind it, and a block. -/
theorem SoundAt.guarded {n : Nat} (h : SoundAt n) {ts mid rest : List Token} {c : Expr}
    {b : Block} {w₁ w₂ : String} (hn : 3 * ts.length ≤ n)
    (hc : (Parser.expr n 0).Reads ts c (⟨.rparen, w₁⟩ :: ⟨.lbrace, w₂⟩ :: mid))
    (hb : (block (Parser.stmt n) n).Reads mid b rest) :
    ∃ us vs, ts = us ++ ⟨.rparen, w₁⟩ :: vs ++ rest ∧ Derives (.expr 0) us c ∧
      Derives .block vs b := by
  obtain ⟨⟨us, rfl, hd⟩, -⟩ := h.expr (Nat.zero_le 6) hn hc
  simp only [List.length_append, List.length_cons] at hn
  obtain ⟨vs, hvs, hbd⟩ := h.braces w₂ (by omega) hb
  exact ⟨us, vs, by simp [hvs], hd, hbd⟩

theorem SoundAt.args {n : Nat} (h : SoundAt n) {close : Kind} (hc : close ≠ .eof)
    {ts rest : List Token} {es : List Expr} (hn : 3 * ts.length ≤ n)
    (hr : (commaList close close (Parser.expr n 0) n).Reads ts es rest) :
    ∃ us w, ts = us ++ ⟨close, w⟩ :: rest ∧ Derives (.list (.expr 0)) us es :=
  commaList_sound (p := .expr 0) hc
    (fun hle hr => (h.expr (Nat.zero_le 6) (by omega) hr).1) (Nat.le_refl _) hr

theorem ofDigits_toList (w : String) : ofDigits w.toList = decimal w := by
  simp [ofDigits, decimal, Nat.ofDigitChars_eq_foldl]

theorem integerOf?_eq_some {w : String} {i : Int64} (h : integerOf? w = some i) :
    decimal w ≤ 0x7FFFFFFFFFFFFFFF ∧ i = Int64.ofNat (decimal w) := by
  simp only [integerOf?, ofDigits_toList] at h
  split at h
  · rename_i hle
    exact ⟨hle, by simpa using h.symm⟩
  · cases h

theorem SoundAt.operand_succ {n : Nat} (h : SoundAt n) {ts rest : List Token} {e : Expr}
    (hn : 3 * ts.length ≤ n + 2) (hr : (Parser.operand (n + 1)).Reads ts e rest) :
    ∃ us, ts = us ++ rest ∧ Held 6 us e (ahead rest) := by
  simp only [Parser.operand, reads_bind] at hr
  obtain ⟨⟨k, w⟩, mid, ht, hr⟩ := hr
  rcases reads_next.1 ht with rfl | ⟨rfl, ⟨⟩, rfl⟩
  case inr => exact absurd hr not_reads_fail
  simp only [List.length_cons] at hn
  -- A tree of the tightest tier from the tokens after the first.
  have tight : ∀ us : List Token, ⟨k, w⟩ :: mid = us ++ rest → Derives (.expr 6) us e →
      ∃ us, (⟨k, w⟩ :: mid : List Token) = us ++ rest ∧ Held 6 us e (ahead rest) :=
    fun us he hd => ⟨us, he, .of_operand hd⟩
  have unary : ∀ (op : UnaryOp) {e' : Expr}, k = op.kind → e = .unary op e' →
      (Parser.expr n unaryBinding).Reads mid e' rest →
      ∃ us, (⟨k, w⟩ :: mid : List Token) = us ++ rest ∧ Held 6 us e (ahead rest) := by
    rintro op e' rfl rfl hr
    obtain ⟨⟨us, rfl, hd⟩, hb⟩ := h.expr (by decide) (by omega) hr
    exact ⟨⟨op.kind, w⟩ :: us, rfl, .unary op hd, fun hlt => absurd hb (Nat.not_le.2 hlt)⟩
  cases k with
  | ident | string | kwTrue | kwFalse =>
    obtain ⟨rfl, rfl⟩ := reads_pure.1 hr
    first
    | exact tight [_] rfl .ident
    | exact tight [_] rfl .string
    | exact tight [_] rfl .true
    | exact tight [_] rfl .false
  | int =>
    simp only at hr
    split at hr
    · rename_i i hi
      obtain ⟨rfl, rfl⟩ := reads_pure.1 hr
      obtain ⟨hle, rfl⟩ := integerOf?_eq_some hi
      exact tight [_] rfl (.integer hle)
    · exact absurd hr not_reads_fail
  | bang =>
    simp only [reads_bind, reads_pure] at hr
    obtain ⟨e', _, hr, rfl, rfl⟩ := hr
    exact unary .not rfl rfl hr
  | minus =>
    simp only [reads_bind, reads_pure] at hr
    obtain ⟨e', _, hr, rfl, rfl⟩ := hr
    exact unary .negate rfl rfl hr
  | lparen =>
    simp (disch := decide) only [reads_bind, reads_pure, reads_symbol] at hr
    obtain ⟨e', _, hr, _, _, ⟨w', rfl⟩, rfl, rfl⟩ := hr
    obtain ⟨⟨us, rfl, hd⟩, -⟩ := h.expr (Nat.zero_le 6) (by omega) hr
    exact tight (⟨.lparen, w⟩ :: us ++ [⟨.rparen, w'⟩]) (by simp) (.group hd)
  | lbracket =>
    simp only [reads_bind, reads_pure] at hr
    obtain ⟨es, _, hr, rfl, rfl⟩ := hr
    obtain ⟨us, w', rfl, hd⟩ := h.args (by decide) (by omega) hr
    exact tight (⟨.lbracket, w⟩ :: us ++ [⟨.rbracket, w'⟩]) (by simp) (.array hd)
  | lbrace =>
    simp only [reads_bind, reads_pure] at hr
    obtain ⟨es, _, hr, rfl, rfl⟩ := hr
    obtain ⟨us, w', rfl, hd⟩ := commaList_sound (p := .entry) (by decide)
      (fun hle hr => h.entry (by omega) hr) (Nat.le_refl _) hr
    exact tight (⟨.lbrace, w⟩ :: us ++ [⟨.rbrace, w'⟩]) (by simp) (.hash hd)
  | kwIf =>
    simp (disch := decide) only [reads_bind, reads_symbol] at hr
    obtain ⟨_, _, ⟨w₂, rfl⟩, c, _, hc, _, _, ⟨w₃, rfl⟩, _, _, ⟨w₀, rfl⟩, b, _, hb, alt, _, ha,
      hr⟩ := hr
    simp only [List.length_cons] at hn
    obtain ⟨us, vs, rfl, hd, hbd⟩ := h.guarded (by omega) hc hb
    obtain ⟨rfl, w₄, rfl⟩ | ⟨rfl, -, rfl⟩ := (reads_accept (by decide)).1 ha
    · simp (disch := decide) only [if_true, reads_bind, reads_symbol, reads_pure] at hr
      obtain ⟨_, _, ⟨w₅, rfl⟩, d, _, hb', rfl, rfl⟩ := hr
      simp only [List.length_append, List.length_cons] at hn
      obtain ⟨zs, hzs, hbd'⟩ := h.braces w₅ (by omega) hb'
      exact tight (⟨.kwIf, w⟩ :: ⟨.lparen, w₂⟩ :: us ++ ⟨.rparen, w₃⟩ :: vs ++
        ⟨.kwElse, w₄⟩ :: zs) (by simp [hzs]) (.ifElse hd hbd hbd')
    · obtain ⟨rfl, rfl⟩ := reads_pure.1 hr
      exact tight (⟨.kwIf, w⟩ :: ⟨.lparen, w₂⟩ :: us ++ ⟨.rparen, w₃⟩ :: vs) (by simp)
        (.ifThen hd hbd)
  | kwFor =>
    simp (disch := decide) only [reads_bind, reads_pure, reads_name, reads_symbol] at hr
    obtain ⟨_, _, ⟨w₂, rfl⟩, x, _, rfl, _, _, ⟨w₃, rfl⟩, c, _, hc, _, _, ⟨w₄, rfl⟩, _, _,
      ⟨w₀, rfl⟩, b, _, hb, rfl, rfl⟩ := hr
    simp only [List.length_cons] at hn
    obtain ⟨us, vs, rfl, hd, hbd⟩ := h.guarded (by omega) hc hb
    exact tight (⟨.kwFor, w⟩ :: ⟨.lparen, w₂⟩ :: ⟨.ident, x⟩ :: ⟨.kwIn, w₃⟩ :: us ++
      ⟨.rparen, w₄⟩ :: vs) (by simp) (.forIn hd hbd)
  | kwWhile =>
    simp (disch := decide) only [reads_bind, reads_pure, reads_symbol] at hr
    obtain ⟨_, _, ⟨w₂, rfl⟩, c, _, hc, _, _, ⟨w₃, rfl⟩, _, _, ⟨w₀, rfl⟩, b, _, hb, rfl, rfl⟩ := hr
    simp only [List.length_cons] at hn
    obtain ⟨us, vs, rfl, hd, hbd⟩ := h.guarded (by omega) hc hb
    exact tight (⟨.kwWhile, w⟩ :: ⟨.lparen, w₂⟩ :: us ++ ⟨.rparen, w₃⟩ :: vs) (by simp)
      (.whileDo hd hbd)
  | kwFn =>
    simp (disch := decide) only [reads_bind, reads_pure, reads_symbol] at hr
    obtain ⟨_, us', ⟨w₂, rfl⟩, xs, _, hx, _, vs', ⟨w₀, rfl⟩, b, _, hb, rfl, rfl⟩ := hr
    obtain ⟨us, w₃, rfl, hd⟩ := commaList_sound (p := .param) (by decide)
      (fun _ hr => ⟨[_], reads_name.1 hr, .param⟩) (Nat.le_refl _) hx
    simp only [List.length_append, List.length_cons] at hn
    obtain ⟨vs, hvs, hbd⟩ := h.braces w₀ (by omega) hb
    exact tight (⟨.kwFn, w⟩ :: ⟨.lparen, w₂⟩ :: us ++ ⟨.rparen, w₃⟩ :: vs) (by simp [hvs])
      (.function hd hbd)
  | _ => exact absurd hr not_reads_fail

theorem SoundAt.entry_succ {n : Nat} (h : SoundAt n) {ts rest : List Token} {a : Expr × Expr}
    (hn : 3 * ts.length ≤ n) (hr : (Parser.entry (n + 1)).Reads ts a rest) :
    Fronts .entry ts a rest := by
  simp (disch := decide) only [Parser.entry, reads_bind, reads_pure, reads_symbol] at hr
  obtain ⟨k, _, hk, _, vs', ⟨w, rfl⟩, v, _, hv, rfl, rfl⟩ := hr
  obtain ⟨⟨us, rfl, hkd⟩, -⟩ := h.expr (Nat.zero_le 6) hn hk
  simp only [List.length_append, List.length_cons] at hn
  obtain ⟨⟨vs, rfl, hvd⟩, -⟩ := h.expr (Nat.zero_le 6) (by omega) hv
  exact ⟨us ++ ⟨.colon, w⟩ :: vs, by simp, .entry hkd hvd⟩

theorem eq_kind_of_ofKind? {k : Kind} {op : BinaryOp} (h : BinaryOp.ofKind? k = some op) :
    k = op.kind ∧ k.binding = op.tier + 1 := by
  cases k <;> cases h <;> decide

theorem SoundAt.suffix_succ {n : Nat} (h : SoundAt n) {us ts rest : List Token} {left e : Expr}
    {t : Token} (hb : 0 < t.kind.binding) (hn : 3 * ts.length ≤ n)
    (hd : Derives (.expr (min (t.kind.binding - 1) 6)) us left)
    (hr : (Parser.suffix (n + 1) left t.kind).Reads ts e rest) :
    ∃ vs, ts = vs ++ rest ∧ Derives (.expr (min (t.kind.binding - 1) 6)) (us ++ t :: vs) e ∧
      ((ahead rest).binding ≤ t.kind.binding ∨ 7 ≤ t.kind.binding) := by
  obtain ⟨k, w⟩ := t
  simp only at hb hd hr ⊢
  unfold Parser.suffix at hr
  split at hr
  · simp only [reads_bind, reads_pure] at hr
    obtain ⟨es, _, hr, rfl, rfl⟩ := hr
    obtain ⟨vs, w', rfl, hs⟩ := h.args (by decide) hn hr
    refine ⟨vs ++ [⟨.rparen, w'⟩], by simp, ?_, .inr (by decide)⟩
    show Derives (.expr 6) _ _
    simpa using Derives.call hd hs
  · simp (disch := decide) only [reads_bind, reads_pure, reads_symbol] at hr
    obtain ⟨i, _, hr, _, _, ⟨w', rfl⟩, rfl, rfl⟩ := hr
    obtain ⟨⟨vs, rfl, hi⟩, -⟩ := h.expr (Nat.zero_le 6) hn hr
    refine ⟨vs ++ [⟨.rbracket, w'⟩], by simp, ?_, .inr (by decide)⟩
    show Derives (.expr 6) _ _
    simpa using Derives.index hd hi
  · split at hr
    · simp only [reads_bind, reads_pure] at hr
      obtain ⟨v, _, hr, rfl, rfl⟩ := hr
      obtain ⟨⟨vs, rfl, hv⟩, hle⟩ := h.expr (Nat.zero_le 6) hn hr
      exact ⟨vs, rfl, .assign hd.target_of_ident hv, .inl (Nat.le_succ_of_le hle)⟩
    · exact absurd hr not_reads_fail
  · split at hr
    · rename_i op hop
      simp only [reads_bind, reads_pure] at hr
      obtain ⟨r, _, hr, rfl, rfl⟩ := hr
      obtain ⟨rfl, hk⟩ := eq_kind_of_ofKind? hop
      have htier : op.tier ≤ 4 := by cases op <;> decide
      obtain ⟨⟨vs, rfl, hrd⟩, hle⟩ := h.expr (by omega) hn hr
      rw [hk, show min (op.tier + 1) 5 = op.tier + 1 by omega] at hrd
      rw [hk, show min (op.tier + 1 - 1) 6 = op.tier by omega] at hd ⊢
      exact ⟨vs, rfl, .binary op hd hrd, .inl (by omega)⟩
    · rename_i h₁ h₂ h₃ _ hop
      cases k <;> simp_all [BinaryOp.ofKind?, Kind.binding]

/-- After an expression the statement may end. -/
theorem ends_of_reads {s : Stmt} {ts rest : List Token} {u : Unit} (hm : MayStayOpen s ts)
    (h : semicolon.Reads ts u rest) : Ends s ts rest :=
  (reads_semicolon.1 h).imp id fun h => ⟨hm, h⟩

theorem next_of_ahead {ts mid : List Token} {t : Token} {k : Kind} (hk : ahead ts = k)
    (hne : k ≠ .eof) (h : next.Reads ts t mid) : ∃ w, ts = ⟨k, w⟩ :: mid := by
  rcases reads_next.1 h with rfl | ⟨rfl, -⟩
  · exact ⟨t.text, by rw [← hk]; rfl⟩
  · exact absurd hk.symm hne

theorem SoundAt.stmt_succ {n : Nat} (h : SoundAt n) {ts rest : List Token} {s : Stmt}
    (hn : 3 * ts.length ≤ n) (hr : (Parser.stmt (n + 1)).Reads ts s rest) :
    ∃ us mid, ts = us ++ mid ∧ Derives .stmt us s ∧ Ends s mid rest := by
  simp only [Parser.stmt, reads_bind, reads_peek] at hr
  obtain ⟨_, _, ⟨rfl, rfl⟩, hr⟩ := hr
  split at hr
  · rename_i hk
    simp (disch := decide) only [reads_bind, reads_pure, reads_name, reads_symbol] at hr
    obtain ⟨_, _, ht, x, _, rfl, _, _, ⟨w₂, rfl⟩, e, _, he, _, _, hs, rfl, rfl⟩ := hr
    obtain ⟨w, rfl⟩ := next_of_ahead hk (by decide) ht
    obtain ⟨⟨us, rfl, hd⟩, hb⟩ := h.expr (Nat.zero_le 6) (by simp at hn; omega) he
    exact ⟨⟨.kwLet, w⟩ :: ⟨.ident, x⟩ :: ⟨.assign, w₂⟩ :: us, _, by simp, .define hd,
      ends_of_reads (mayStayOpen_of_binding hb) hs⟩
  · rename_i hk
    simp only [reads_bind, reads_pure] at hr
    obtain ⟨_, _, ht, e, _, he, _, _, hs, rfl, rfl⟩ := hr
    obtain ⟨w, rfl⟩ := next_of_ahead hk (by decide) ht
    obtain ⟨⟨us, rfl, hd⟩, hb⟩ := h.expr (Nat.zero_le 6) (by simp at hn; omega) he
    exact ⟨⟨.kwReturn, w⟩ :: us, _, by simp, .ret hd, ends_of_reads (mayStayOpen_of_binding hb) hs⟩
  · rename_i hk
    simp only [reads_bind, reads_pure] at hr
    obtain ⟨_, _, ht, _, _, hs, rfl, rfl⟩ := hr
    obtain ⟨w, rfl⟩ := next_of_ahead hk (by decide) ht
    exact ⟨[⟨.kwBreak, w⟩], _, rfl, .brk, ends_of_reads (.inl rfl) hs⟩
  · rename_i hk
    simp only [reads_bind, reads_pure] at hr
    obtain ⟨_, _, ht, _, _, hs, rfl, rfl⟩ := hr
    obtain ⟨w, rfl⟩ := next_of_ahead hk (by decide) ht
    exact ⟨[⟨.kwContinue, w⟩], _, rfl, .cont, ends_of_reads (.inr (.inl rfl)) hs⟩
  · simp only [reads_bind, reads_pure] at hr
    obtain ⟨e, _, he, _, _, hs, rfl, rfl⟩ := hr
    obtain ⟨⟨us, rfl, hd⟩, hb⟩ := h.expr (Nat.zero_le 6) hn he
    exact ⟨us, _, rfl, .eval hd, ends_of_reads (mayStayOpen_of_binding hb) hs⟩

theorem soundAt : ∀ n, SoundAt n
  | 0 => .zero
  | n + 1 =>
    have h := soundAt n
    { expr := h.expr_succ
      operand := h.operand_succ
      entry := fun hn => h.entry_succ (by omega)
      suffix := fun hb hn => h.suffix_succ hb (by omega)
      stmt := fun hn => h.stmt_succ (by omega) }

/-- Tokens that are read to their end without an error are statements. -/
theorem parseTokens_sound {ts : List Token} (heof : ∀ t ∈ ts, t.kind ≠ .eof)
    (h : (parseTokens ts).errors = []) : Derives .stmts ts (parseTokens ts).program := by
  obtain ⟨p, rest, hr⟩ := (honest_program (honestAt (3 * ts.length + 3)).stmt
    (3 * ts.length + 3)).reads h
  have hp : (parseTokens ts).program = p := by
    rw [Reads, run] at hr
    simp [parseTokens, hr]
  rw [hp]
  exact program_sound (honestAt _).stmt
    (fun hle hr => (soundAt _).stmt (Nat.add_le_add (Nat.mul_le_mul_left 3 hle) (by decide)) hr)
    (Nat.le_refl _) (by omega) heof hr

end MonkeyLang.Parser
