/-
The canonical text of a program reads back as the program. `Spelled` says that
a text is lexed to the tokens of a phrase, whatever comes behind it that does
not lengthen its last word; each form of the printer keeps it, and the grammar
then gives the tree back. In the other direction, what is read from any text
without an error has only names, integers and strings that can be printed.
-/
import MonkeyLang.Program.Printer
import MonkeyLang.Proofs.Grammar.Completeness
import MonkeyLang.Proofs.Lexing

namespace MonkeyLang

open Grammar

/-! ## What can be printed -/

/-- What a program says: its names and literals, and the lists of statements in it. -/
inductive Part where
  | name (x : String)
  | integer (value : Int64)
  | string (value : String)
  | stmts (ss : List Stmt)

mutual

def Expr.parts : Expr → List Part
  | .ident x => [.name x]
  | .integer value => [.integer value]
  | .boolean _ => []
  | .string value => [.string value]
  | .array items => Expr.partsList items
  | .hash entries => Expr.partsEntries entries
  | .unary _ operand => operand.parts
  | .binary left _ right => left.parts ++ right.parts
  | .assign x value => .name x :: value.parts
  | .ifElse condition consequence alternative =>
    condition.parts ++ .stmts consequence :: Stmt.partsList consequence
      ++ Stmt.partsElse alternative
  | .forIn x iterable body => .name x :: iterable.parts ++ .stmts body :: Stmt.partsList body
  | .whileDo condition body => condition.parts ++ .stmts body :: Stmt.partsList body
  | .function parameters body => parameters.map .name ++ .stmts body :: Stmt.partsList body
  | .call callee arguments => callee.parts ++ Expr.partsList arguments
  | .index collection key => collection.parts ++ key.parts

def Expr.partsList : List Expr → List Part
  | [] => []
  | e :: es => e.parts ++ Expr.partsList es

def Expr.partsEntries : List (Expr × Expr) → List Part
  | [] => []
  | (key, value) :: entries => key.parts ++ value.parts ++ Expr.partsEntries entries

def Stmt.parts : Stmt → List Part
  | .define x value => .name x :: value.parts
  | .ret value => value.parts
  | .expr value => value.parts
  | .brk => []
  | .cont => []

def Stmt.partsList : List Stmt → List Part
  | [] => []
  | s :: ss => s.parts ++ Stmt.partsList ss

def Stmt.partsElse : Option (List Stmt) → List Part
  | none => []
  | some block => .stmts block :: Stmt.partsList block

end

def Program.parts (p : Program) : List Part := .stmts p :: Stmt.partsList p

/-- The text of the name or literal reads back: names are words, integers have no sign, and no
string holds a quote. -/
def Part.Legible : Part → Prop
  | .name x => IsName x
  | .integer value => 0 ≤ value.toInt ∧ value.toInt ≤ 0x7FFFFFFFFFFFFFFF
  | .string value => '"' ∉ value.toList
  | .stmts _ => True

instance : (part : Part) → Decidable part.Legible
  | .name x => inferInstanceAs (Decidable (IsName x))
  | .integer _ => inferInstanceAs (Decidable (_ ∧ _))
  | .string value => inferInstanceAs (Decidable ('"' ∉ value.toList))
  | .stmts _ => .isTrue trivial

/-- The statement is an expression, which is printed without a semicolon. -/
def Stmt.isEval : Stmt → Bool
  | .expr _ => true
  | _ => false

/-- An expression statement stands last in its list. -/
def Part.Tidy : Part → Prop
  | .stmts ss => ∀ s ∈ ss.dropLast, s.isEval = false
  | _ => True

instance : (part : Part) → Decidable part.Tidy
  | .stmts ss => inferInstanceAs (Decidable (∀ s ∈ ss.dropLast, s.isEval = false))
  | .name _ | .integer _ | .string _ => .isTrue trivial

def Program.Legible (p : Program) : Prop := ∀ part ∈ p.parts, part.Legible

def Program.Printable (p : Program) : Prop := ∀ part ∈ p.parts, part.Legible ∧ part.Tidy

instance (p : Program) : Decidable p.Printable :=
  inferInstanceAs (Decidable (∀ part ∈ Program.parts p, _))

/-! ## Pieces of text -/

/-- The text is lexed to the tokens in front of every text. -/
def Closes (s : String) (ts : List Token) : Prop :=
  ∀ rest, lex (s.toList ++ rest) = ts ++ lex rest

/-- The text is lexed to the tokens in front of every text that does not lengthen its last word. -/
def Spells (s : String) (ts : List Token) : Prop :=
  ∀ rest, Stops rest → lex (s.toList ++ rest) = ts ++ lex rest

/-- A word in front of the text ends there. -/
def Breaks (s : String) : Prop := ∀ rest, Stops (s.toList ++ rest)

section

variable {s t w x : String} {k : Kind} {ts us : List Token} {rest : List Char}

theorem Closes.spells (h : Closes s ts) : Spells s ts := fun rest _ => h rest

/-- The tokens of the whole text. -/
theorem Spells.tokens_eq (h : Spells s ts) : tokens s = ts := by
  have hl := h [] stops_nil
  rw [List.append_nil] at hl
  rw [tokens_eq_lex, hl]
  exact List.append_nil ts

theorem Closes.append (hs : Closes s ts) (ht : Spells t us) : Spells (s ++ t) (ts ++ us) := by
  intro rest hr
  rw [String.toList_append, List.append_assoc, hs, ht rest hr, List.append_assoc]

theorem Closes.trans (hs : Closes s ts) (ht : Closes t us) : Closes (s ++ t) (ts ++ us) := by
  intro rest
  rw [String.toList_append, List.append_assoc, hs, ht, List.append_assoc]

theorem Spells.append (hs : Spells s ts) (ht : Spells t us) (hb : Breaks t) :
    Spells (s ++ t) (ts ++ us) := by
  intro rest hr
  rw [String.toList_append, List.append_assoc, hs _ (hb rest), ht rest hr, List.append_assoc]

theorem Spells.close (hs : Spells s ts) (ht : Closes t us) (hb : Breaks t) :
    Closes (s ++ t) (ts ++ us) := by
  intro rest
  rw [String.toList_append, List.append_assoc, hs _ (hb rest), ht, List.append_assoc]

theorem breaks (h : s.toList.head?.any endsWord) : Breaks s := by
  intro rest
  cases hs : s.toList with
  | nil => simp [hs] at h
  | cons c cs => exact stops_cons _ (by simpa [hs] using h)

theorem Breaks.append (h : Breaks s) (t : String) : Breaks (s ++ t) := by
  intro rest
  rw [String.toList_append, List.append_assoc]
  exact h _

theorem closes_delimiter {c : Char} (hs : s.toList = [c]) (hk : Kind.ofSymbol? c = some k)
    (he : Kind.ofSymbolEq? c = none) : Closes s [⟨k, s⟩] := by
  intro rest
  rw [hs, List.singleton_append, lex_symbol rest hk (.inl he), ← hs, String.ofList_toList]
  rfl

theorem closes_operator (op : BinaryOp) : Closes op.symbol [⟨op.kind, op.symbol⟩] := by
  cases op with
  | equal => exact fun rest => lex_symbolEq rest rfl
  | notEqual => exact fun rest => lex_symbolEq rest rfl
  | _ => exact closes_delimiter rfl rfl rfl

theorem closes_space (h : Closes s ts) : Closes (s ++ " ") ts := by
  intro rest
  rw [String.toList_append, List.append_assoc, h]
  exact congrArg _ (lex_space rest)

theorem closes_comma : Closes ", " [⟨.comma, ","⟩] :=
  closes_space (s := ",") (closes_delimiter rfl rfl rfl)

theorem closes_colon : Closes ": " [⟨.colon, ":"⟩] :=
  closes_space (s := ":") (closes_delimiter rfl rfl rfl)

theorem spells_name (hx : IsName x) : Spells x [⟨.ident, x⟩] := by
  intro rest hr
  obtain ⟨hne, hc, hk⟩ := hx
  obtain ⟨hw, -⟩ | hw := Kind.ofWord_cases x
  · rw [lex_word hc hne hr, hw]
    rfl
  · exact absurd (List.mem_map_of_mem hw) hk

theorem spells_keyword (hk : (w, k) ∈ Kind.keywords) : Spells w [⟨k, w⟩] := by
  intro rest hr
  have hall : ∀ p ∈ Kind.keywords,
      Kind.ofWord p.1 = p.2 ∧ p.1 ≠ "" ∧ p.1.toList.all Text.isNameChar := by decide
  obtain ⟨hw, hne, hc⟩ := hall _ hk
  rw [lex_word hc hne hr, hw]
  rfl

/-- A keyword with an opening parenthesis. -/
theorem closes_heading (hs : s = w ++ "(") (hk : (w, k) ∈ Kind.keywords) :
    Closes s [⟨k, w⟩, ⟨.lparen, "("⟩] := by
  have hp : Closes "(" [⟨.lparen, "("⟩] := closes_delimiter rfl rfl rfl
  rw [hs]
  exact (spells_keyword hk).close hp (breaks (by decide))

/-- A keyword with a space behind it. -/
theorem closes_leading (hs : s = w ++ " ") (hk : (w, k) ∈ Kind.keywords) : Closes s [⟨k, w⟩] := by
  intro rest
  have hb : Stops (" ".toList ++ rest) := breaks (by decide) rest
  rw [hs, String.toList_append, List.append_assoc, spells_keyword hk _ hb]
  exact congrArg _ (lex_space rest)

theorem closes_in : Closes " in " [⟨.kwIn, "in"⟩] := by
  have h : Closes "in " [⟨.kwIn, "in"⟩] := closes_leading (w := "in") rfl (by decide)
  exact fun rest => (lex_space _).trans (h rest)

theorem closes_equals : Closes " = " [⟨.assign, "="⟩] := by
  intro rest
  have he : lex ('=' :: ' ' :: rest) = ⟨.assign, "="⟩ :: lex (' ' :: rest) :=
    lex_symbol _ rfl (.inr (by simp [GoesOnEqual]))
  exact (lex_space _).trans (he.trans (congrArg _ (lex_space rest)))

/-- A text between two delimiters. -/
theorem closes_between {a b : String} {i j : Kind} (ha : Closes a [⟨i, a⟩]) (hs : Spells s ts)
    (hb : Closes b [⟨j, b⟩]) (hk : Breaks b) :
    Closes (a ++ s ++ b) (⟨i, a⟩ :: ts ++ [⟨j, b⟩]) :=
  (ha.append hs).close hb hk

theorem closes_parens (h : Spells s ts) :
    Closes ("(" ++ s ++ ")") (⟨.lparen, "("⟩ :: ts ++ [⟨.rparen, ")"⟩]) :=
  closes_between (closes_delimiter rfl rfl rfl) h (closes_delimiter rfl rfl rfl)
    (breaks (by decide))

theorem closes_brackets (h : Spells s ts) :
    Closes ("[" ++ s ++ "]") (⟨.lbracket, "["⟩ :: ts ++ [⟨.rbracket, "]"⟩]) :=
  closes_between (closes_delimiter rfl rfl rfl) h (closes_delimiter rfl rfl rfl)
    (breaks (by decide))

theorem closes_braces (h : Spells s ts) :
    Closes ("\x7b" ++ s ++ "\x7d") (⟨.lbrace, "\x7b"⟩ :: ts ++ [⟨.rbrace, "\x7d"⟩]) :=
  closes_between (closes_delimiter rfl rfl rfl) h (closes_delimiter rfl rfl rfl)
    (breaks (by decide))

/-- A keyword, something in parentheses, and what is done with it. -/
theorem closes_headed (hw : x = w ++ "(") (hk : (w, k) ∈ Kind.keywords) (hs : Spells s ts)
    (ht : Closes t us) :
    Closes (x ++ s ++ ")" ++ t) (⟨k, w⟩ :: ⟨.lparen, "("⟩ :: ts ++ ⟨.rparen, ")"⟩ :: us) := by
  have hp : Closes ")" [⟨.rparen, ")"⟩] := closes_delimiter rfl rfl rfl
  have hpt : Closes (")" ++ t) (⟨.rparen, ")"⟩ :: us) := hp.trans ht
  have hb : Breaks (")" ++ t) := (breaks (by decide)).append t
  have h := ((closes_heading hw hk).append hs).close hpt hb
  rwa [← String.append_assoc] at h

end

/-! ## Expressions -/

/-- The text spells the phrase. -/
def Spelled (p : Phrase) (s : String) (a : p.Tree) : Prop :=
  ∃ ts, Derives p ts a ∧ Spells s ts

section

variable {p : Phrase} {s t u x : String}

theorem Spelled.loosen {e : Expr} {m n : Nat} (h : Spelled (.expr n) s e) (hmn : m ≤ n) :
    Spelled (.expr m) s e := by
  obtain ⟨ts, hd, hs⟩ := h
  exact ⟨ts, hd.loosen hmn, hs⟩

/-- No expression begins with an equals sign. -/
theorem Spelled.not_goesOnEqual {e : Expr} {n : Nat} {rest : List Char}
    (h : Spelled (.expr n) s e) (hr : Stops rest) : ¬GoesOnEqual (s.toList ++ rest) := by
  obtain ⟨ts, hd, hs⟩ := h
  obtain ⟨t, us, rfl, -⟩ := hd.opens
  have ht : t.kind ∈ Parser.leading := Parser.leading_of_derives hd
  intro hg
  obtain ⟨cs, hcs⟩ : ∃ cs, s.toList ++ rest = '=' :: cs := List.head?_eq_some_iff.1 hg
  have hl : lex ('=' :: cs) = t :: (us ++ lex rest) := by rw [← hcs, hs rest hr, List.cons_append]
  have hk : t.kind = .eq ∨ t.kind = .assign := by
    by_cases hc : GoesOnEqual cs
    · obtain ⟨ds, rfl⟩ := List.head?_eq_some_iff.1 hc
      rw [lex_symbolEq ds rfl] at hl
      exact .inl (congrArg Token.kind (List.cons.inj hl).1).symm
    · rw [lex_symbol cs rfl (.inr hc)] at hl
      exact .inr (congrArg Token.kind (List.cons.inj hl).1).symm
  obtain hk | hk := hk <;> rw [hk] at ht <;> revert ht <;> decide

theorem spelled_ident (hx : IsName x) : Spelled (.expr 6) x (.ident x) :=
  ⟨[⟨.ident, x⟩], .ident, spells_name hx⟩

theorem toList_toString (n : Nat) : (toString n).toList = Nat.toDigits 10 n := Nat.toList_repr

theorem decimal_toString (n : Nat) : decimal (toString n) = n := by
  rw [decimal, toList_toString, Nat.ofDigitChars_ten_toDigits]

theorem isDigit_of_mem_toString {n : Nat} {c : Char} (h : c ∈ (toString n).toList) :
    Text.isDigit c := by
  rw [toList_toString] at h
  exact Nat.isDigit_of_mem_toDigits (by decide) (by decide) h

theorem spells_number (n : Nat) : Spells (toString n) [⟨.int, toString n⟩] := by
  intro rest hr
  have hne : (toString n).toList ≠ [] := toList_toString n ▸ Nat.toDigits_ne_nil
  have h := lex_number (fun _ hc => isDigit_of_mem_toString hc) hne hr
  rwa [String.ofList_toList] at h

theorem spelled_integer {value : Int64} (h : 0 ≤ value.toInt) :
    Spelled (.expr 6) (toString value.toInt) (.integer value) := by
  obtain ⟨n, hn⟩ := Int.eq_ofNat_of_zero_le h
  have hlt : n < 2 ^ 63 := by
    have := value.toInt_lt
    omega
  have htext : toString value.toInt = toString n := by
    rw [hn]
    rfl
  have hv : value = Int64.ofNat (decimal (toString n)) := by
    rw [decimal_toString, ← Int64.toInt_inj, hn, Int64.toInt_ofNat_of_lt hlt]
  refine ⟨[⟨.int, toString n⟩], ?_, htext ▸ spells_number n⟩
  rw [hv]
  refine .integer ?_
  rw [decimal_toString]
  omega

theorem spelled_boolean (value : Bool) :
    Spelled (.expr 6) (if value then "true" else "false") (.boolean value) := by
  cases value with
  | true => exact ⟨[⟨.kwTrue, "true"⟩], .true, spells_keyword (by decide)⟩
  | false => exact ⟨[⟨.kwFalse, "false"⟩], .false, spells_keyword (by decide)⟩

theorem spelled_string (h : '"' ∉ s.toList) :
    Spelled (.expr 6) ("\"" ++ s ++ "\"") (.string s) := by
  refine ⟨[⟨.string, s⟩], .string, fun rest hr => ?_⟩
  have hl : lex ('"' :: s.toList ++ '"' :: rest) = ⟨.string, String.ofList s.toList⟩ :: lex rest :=
    lex_quoted h
  rw [String.ofList_toList] at hl
  rw [String.toList_append, String.toList_append, List.append_assoc]
  exact hl

/-- Any expression may stand in parentheses. -/
theorem spelled_group {e : Expr} {n : Nat} (h : Spelled (.expr n) s e) :
    Spelled (.expr 6) ("(" ++ s ++ ")") e := by
  obtain ⟨ts, hd, hs⟩ := h
  exact ⟨_, .group (hd.loosen (Nat.zero_le n)), (closes_parens hs).spells⟩

theorem spelled_unary (op : UnaryOp) {e : Expr} (h : Spelled (.expr 6) s e) :
    Spelled (.expr 5) (op.symbol ++ s) (.unary op e) := by
  obtain ⟨ts, hd, hs⟩ := id h
  refine ⟨⟨op.kind, op.symbol⟩ :: ts, .unary op hd.tighter, fun rest hr => ?_⟩
  have hop : lex (op.symbol.toList ++ (s.toList ++ rest)) =
      ⟨op.kind, op.symbol⟩ :: lex (s.toList ++ rest) := by
    cases op with
    | not => exact lex_symbol _ rfl (.inr (h.not_goesOnEqual hr))
    | negate => exact closes_delimiter (s := "-") rfl rfl rfl _
  rw [String.toList_append, List.append_assoc, hop, hs rest hr, List.cons_append]

theorem spelled_binary (op : BinaryOp) {l r : Expr} (hl : Spelled (.expr 6) s l)
    (hr : Spelled (.expr 6) t r) :
    Spelled (.expr op.tier) (s ++ (op.symbol ++ t)) (.binary l op r) := by
  obtain ⟨ts, hdl, hs⟩ := hl
  obtain ⟨us, hdr, ht⟩ := hr
  have hle : op.tier + 1 ≤ 6 := by cases op <;> decide
  have hd : Derives (.expr op.tier) (ts ++ ⟨op.kind, op.symbol⟩ :: us) (.binary l op r) :=
    .binary op (hdl.loosen (by omega)) (hdr.loosen hle)
  have hb : Breaks op.symbol := breaks (by cases op <;> decide)
  exact ⟨_, hd, hs.append ((closes_operator op).append ht) (hb.append t)⟩

theorem spelled_assign {e : Expr} (hx : IsName x) (h : Spelled (.expr 6) s e) :
    Spelled (.expr 0) (x ++ ("=" ++ s)) (.assign x e) := by
  obtain ⟨ts, hd, hs⟩ := id h
  have heq : Spells ("=" ++ s) (⟨.assign, "="⟩ :: ts) := by
    intro rest hr
    have he : lex ('=' :: (s.toList ++ rest)) = ⟨.assign, "="⟩ :: lex (s.toList ++ rest) :=
      lex_symbol _ rfl (.inr (h.not_goesOnEqual hr))
    rw [String.toList_append, List.append_assoc, List.cons_append, ← hs rest hr]
    exact he
  have hb : Breaks ("=" ++ s) := (breaks (by decide)).append s
  exact ⟨_, .assign .targetName (hd.loosen (Nat.zero_le 6)), (spells_name hx).append heq hb⟩

theorem spelled_call {f : Expr} {es : List Expr} (hf : Spelled (.expr 6) s f)
    (hes : Spelled (.list (.expr 0)) t es) :
    Spelled (.expr 6) (s ++ ("(" ++ t ++ ")")) (.call f es) := by
  obtain ⟨ts, hdf, hs⟩ := hf
  obtain ⟨us, hdes, ht⟩ := hes
  have hb : Breaks ("(" ++ t ++ ")") := ((breaks (by decide)).append t).append ")"
  have hst := hs.append (closes_parens ht).spells hb
  rw [← List.append_assoc] at hst
  exact ⟨_, .call hdf hdes, hst⟩

theorem spelled_index {c k : Expr} (hc : Spelled (.expr 6) s c) (hk : Spelled (.expr 6) t k) :
    Spelled (.expr 6) (s ++ ("[" ++ t ++ "]")) (.index c k) := by
  obtain ⟨ts, hdc, hs⟩ := hc
  obtain ⟨us, hdk, ht⟩ := hk
  have hb : Breaks ("[" ++ t ++ "]") := ((breaks (by decide)).append t).append "]"
  have hst := hs.append (closes_brackets ht).spells hb
  rw [← List.append_assoc] at hst
  exact ⟨_, .index hdc (hdk.loosen (Nat.zero_le 6)), hst⟩

/-! ## Lists -/

theorem spelled_none : Spelled (.list p) "" [] := ⟨[], .none, fun _ _ => rfl⟩

theorem spelled_last {a : p.Tree} (h : Spelled p s a) : Spelled (.list p) s [a] := by
  obtain ⟨ts, hd, hs⟩ := h
  exact ⟨ts, .last hd, hs⟩

theorem spelled_more {a : p.Tree} {as : List p.Tree} (h : Spelled p s a)
    (has : Spelled (.list p) t as) : Spelled (.list p) (s ++ (", " ++ t)) (a :: as) := by
  obtain ⟨ts, hd, hs⟩ := h
  obtain ⟨us, hds, ht⟩ := has
  have hb : Breaks (", " ++ t) := (breaks (by decide)).append t
  exact ⟨_, .more hd hds, hs.append (closes_comma.append ht) hb⟩

theorem spelled_param (hx : IsName x) : Spelled .param x x :=
  ⟨[⟨.ident, x⟩], .param, spells_name hx⟩

theorem spelled_params : ∀ {xs : List String}, (∀ x ∈ xs, IsName x) →
    Spelled (.list .param) (", ".intercalate xs) xs
  | [], _ => spelled_none
  | [x], h => spelled_last (spelled_param (h x List.mem_cons_self))
  | x :: y :: xs, h => by
    rw [String.intercalate_cons_cons, String.append_assoc]
    exact spelled_more (spelled_param (h x List.mem_cons_self))
      (spelled_params fun z hz => h z (List.mem_cons_of_mem _ hz))

theorem spelled_entry {k v : Expr} {m n : Nat} (hk : Spelled (.expr m) s k)
    (hv : Spelled (.expr n) t v) : Spelled .entry (s ++ (": " ++ t)) (k, v) := by
  obtain ⟨ts, hdk, hs⟩ := hk
  obtain ⟨us, hdv, ht⟩ := hv
  have hb : Breaks (": " ++ t) := (breaks (by decide)).append t
  exact ⟨_, .entry (hdk.loosen (Nat.zero_le m)) (hdv.loosen (Nat.zero_le n)),
    hs.append (closes_colon.append ht) hb⟩

theorem spelled_array {es : List Expr} (h : Spelled (.list (.expr 0)) s es) :
    Spelled (.expr 6) ("[" ++ s ++ "]") (.array es) := by
  obtain ⟨ts, hd, hs⟩ := h
  exact ⟨_, .array hd, (closes_brackets hs).spells⟩

theorem spelled_hash {es : List (Expr × Expr)} (h : Spelled (.list .entry) s es) :
    Spelled (.expr 6) ("\x7b" ++ s ++ "\x7d") (.hash es) := by
  obtain ⟨ts, hd, hs⟩ := h
  exact ⟨_, .hash hd, (closes_braces hs).spells⟩

/-! ## Blocks and statements -/

/-- A block ends with its brace, whatever comes behind it. -/
theorem closes_block {b : Block} (h : Spelled .stmts s b) :
    ∃ ts, Derives .block ts b ∧ Closes ("\x7b" ++ s ++ "\x7d") ts := by
  obtain ⟨ts, hd, hs⟩ := h
  exact ⟨_, .block hd, closes_braces hs⟩

theorem spelled_ifThen {c : Expr} {b : Block} (hc : Spelled (.expr 6) s c)
    (hb : Spelled .stmts t b) :
    Spelled (.expr 6) ("if(" ++ s ++ ")" ++ ("\x7b" ++ t ++ "\x7d")) (.ifElse c b none) := by
  obtain ⟨ts, hdc, hs⟩ := hc
  obtain ⟨us, hdb, ht⟩ := closes_block hb
  have hst := closes_headed (w := "if") (k := .kwIf) rfl (by decide) hs ht
  exact ⟨_, .ifThen (hdc.loosen (Nat.zero_le 6)) hdb, hst.spells⟩

theorem spelled_ifElse {c : Expr} {b d : Block} (hc : Spelled (.expr 6) s c)
    (hb : Spelled .stmts t b) (hd : Spelled .stmts u d) :
    Spelled (.expr 6)
      ("if(" ++ s ++ ")" ++ (("\x7b" ++ t ++ "\x7d") ++ ("else" ++ ("\x7b" ++ u ++ "\x7d"))))
      (.ifElse c b (some d)) := by
  obtain ⟨ts, hdc, hs⟩ := hc
  obtain ⟨us, hdb, ht⟩ := closes_block hb
  obtain ⟨vs, hdd, hu⟩ := closes_block hd
  have hk : Breaks ("\x7b" ++ u ++ "\x7d") := ((breaks (by decide)).append u).append "\x7d"
  have he : Closes ("else" ++ ("\x7b" ++ u ++ "\x7d")) (⟨.kwElse, "else"⟩ :: vs) :=
    (spells_keyword (by decide)).close hu hk
  have hst := closes_headed (w := "if") (k := .kwIf) rfl (by decide) hs (ht.trans he)
  rw [← List.cons_append, ← List.append_assoc] at hst
  exact ⟨_, .ifElse (hdc.loosen (Nat.zero_le 6)) hdb hdd, hst.spells⟩

theorem spelled_forIn {e : Expr} {b : Block} (hx : IsName x) (he : Spelled (.expr 6) s e)
    (hb : Spelled .stmts t b) :
    Spelled (.expr 6) ("for(" ++ (x ++ (" in " ++ s)) ++ ")" ++ ("\x7b" ++ t ++ "\x7d"))
      (.forIn x e b) := by
  obtain ⟨ts, hde, hs⟩ := he
  obtain ⟨us, hdb, ht⟩ := closes_block hb
  have hk : Breaks (" in " ++ s) := (breaks (by decide)).append s
  have hxs : Spells (x ++ (" in " ++ s)) (⟨.ident, x⟩ :: ⟨.kwIn, "in"⟩ :: ts) :=
    (spells_name hx).append (closes_in.append hs) hk
  have hst := closes_headed (w := "for") (k := .kwFor) rfl (by decide) hxs ht
  exact ⟨_, .forIn (hde.loosen (Nat.zero_le 6)) hdb, hst.spells⟩

theorem spelled_whileDo {c : Expr} {b : Block} (hc : Spelled (.expr 6) s c)
    (hb : Spelled .stmts t b) :
    Spelled (.expr 6) ("while(" ++ s ++ ")" ++ ("\x7b" ++ t ++ "\x7d")) (.whileDo c b) := by
  obtain ⟨ts, hdc, hs⟩ := hc
  obtain ⟨us, hdb, ht⟩ := closes_block hb
  have hst := closes_headed (w := "while") (k := .kwWhile) rfl (by decide) hs ht
  exact ⟨_, .whileDo (hdc.loosen (Nat.zero_le 6)) hdb, hst.spells⟩

theorem spelled_function {xs : List String} {b : Block} (hxs : Spelled (.list .param) s xs)
    (hb : Spelled .stmts t b) :
    Spelled (.expr 6) ("fn(" ++ s ++ ")" ++ ("\x7b" ++ t ++ "\x7d")) (.function xs b) := by
  obtain ⟨ts, hdx, hs⟩ := hxs
  obtain ⟨us, hdb, ht⟩ := closes_block hb
  have hst := closes_headed (w := "fn") (k := .kwFn) rfl (by decide) hs ht
  exact ⟨_, .function hdx hdb, hst.spells⟩

theorem spelled_define {e : Expr} (hx : IsName x) (h : Spelled (.expr 6) s e) :
    Spelled .stmt ("let " ++ (x ++ (" = " ++ s))) (.define x e) := by
  obtain ⟨ts, hd, hs⟩ := h
  have hlet : Closes "let " [⟨.kwLet, "let"⟩] := closes_leading (w := "let") rfl (by decide)
  have hb : Breaks (" = " ++ s) := (breaks (by decide)).append s
  have hxs : Spells (x ++ (" = " ++ s)) (⟨.ident, x⟩ :: ⟨.assign, "="⟩ :: ts) :=
    (spells_name hx).append (closes_equals.append hs) hb
  exact ⟨_, .define (hd.loosen (Nat.zero_le 6)), hlet.append hxs⟩

theorem spelled_ret {e : Expr} (h : Spelled (.expr 6) s e) :
    Spelled .stmt ("return " ++ s) (.ret e) := by
  obtain ⟨ts, hd, hs⟩ := h
  have hret : Closes "return " [⟨.kwReturn, "return"⟩] :=
    closes_leading (w := "return") rfl (by decide)
  exact ⟨_, .ret (hd.loosen (Nat.zero_le 6)), hret.append hs⟩

theorem spelled_eval {e : Expr} {n : Nat} (h : Spelled (.expr n) s e) :
    Spelled .stmt s (.expr e) := by
  obtain ⟨ts, hd, hs⟩ := h
  exact ⟨ts, .eval (hd.loosen (Nat.zero_le n)), hs⟩

theorem spelled_brk : Spelled .stmt "break" .brk :=
  ⟨[⟨.kwBreak, "break"⟩], .brk, spells_keyword (by decide)⟩

theorem spelled_cont : Spelled .stmt "continue" .cont :=
  ⟨[⟨.kwContinue, "continue"⟩], .cont, spells_keyword (by decide)⟩

theorem spelled_stop : Spelled .stmts "" [] := ⟨[], .stop, fun _ _ => rfl⟩

theorem spelled_closed {a : Stmt} {as : List Stmt} (h : Spelled .stmt s a)
    (has : Spelled .stmts t as) : Spelled .stmts (s ++ (";" ++ t)) (a :: as) := by
  obtain ⟨ts, hd, hs⟩ := h
  obtain ⟨us, hds, ht⟩ := has
  have hc : Closes ";" [⟨.semicolon, ";"⟩] := closes_delimiter rfl rfl rfl
  have hb : Breaks (";" ++ t) := (breaks (by decide)).append t
  exact ⟨_, .closed hd hds, hs.append (hc.append ht) hb⟩

/-- The last statement of a list needs no semicolon. -/
theorem spelled_open {a : Stmt} (h : Spelled .stmt s a) : Spelled .stmts s [a] := by
  obtain ⟨ts, hd, hs⟩ := h
  have ho : MayStayOpen a [] := .inr (.inr fun t ht => nomatch ht)
  have hds : Derives .stmts ts [a] := by
    have := Derives.open hd ho .stop
    rwa [List.append_nil] at this
  exact ⟨ts, hds, hs⟩

end

/-! ## Printing and reading -/

/-- The parts of a tree can be printed. -/
def AllPrintable (parts : List Part) : Prop := ∀ part ∈ parts, part.Legible ∧ part.Tidy

theorem allPrintable_append {as bs : List Part} :
    AllPrintable (as ++ bs) ↔ AllPrintable as ∧ AllPrintable bs :=
  List.forall_mem_append

theorem allPrintable_cons {a : Part} {as : List Part} :
    AllPrintable (a :: as) ↔ (a.Legible ∧ a.Tidy) ∧ AllPrintable as :=
  List.forall_mem_cons

/-- Statements before others are no expression statements, so they are printed with a semicolon. -/
theorem Part.Tidy.tail {s : Stmt} {ss : List Stmt} (h : (Part.stmts (s :: ss)).Tidy) :
    (Part.stmts ss).Tidy := by
  cases ss with
  | nil => exact fun s hs => nomatch hs
  | cons r rs => exact fun s hs => h s (List.mem_cons_of_mem _ hs)

theorem Expr.printList_singleton (e : Expr) : Expr.printList [e] = e.print := by
  simp only [Expr.printList, Expr.printListTail, String.append_empty]

theorem Expr.printList_cons_cons (e e' : Expr) (es : List Expr) :
    Expr.printList (e :: e' :: es) = e.print ++ (", " ++ Expr.printList (e' :: es)) := by
  simp only [Expr.printList, Expr.printListTail, String.append_assoc]

theorem Expr.printEntries_singleton (k v : Expr) :
    Expr.printEntries [(k, v)] = k.print ++ (": " ++ v.print) := by
  simp only [Expr.printEntries, Expr.printEntriesTail, String.append_empty, String.append_assoc]

theorem Expr.printEntries_cons_cons (k v : Expr) (e : Expr × Expr) (es : List (Expr × Expr)) :
    Expr.printEntries ((k, v) :: e :: es) =
      k.print ++ (": " ++ v.print) ++ (", " ++ Expr.printEntries (e :: es)) := by
  simp only [Expr.printEntries, Expr.printEntriesTail, String.append_assoc]

/-- The printer closes the brackets of an index and its parentheses at once. -/
theorem Expr.print_index (c k : Expr) :
    (Expr.index c k).print = "(" ++ (c.print ++ ("[" ++ k.print ++ "]")) ++ ")" := by
  simp only [Expr.print, String.append_assoc, show "])" = "]" ++ ")" from rfl]

mutual

theorem Expr.spelled : ∀ e : Expr, AllPrintable e.parts → Spelled (.expr 6) e.print e
  | .ident x, h => spelled_ident (h _ List.mem_cons_self).1
  | .integer value, h => spelled_integer (h _ List.mem_cons_self).1.1
  | .boolean value, _ => spelled_boolean value
  | .string value, h => spelled_string (h _ List.mem_cons_self).1
  | .array items, h => spelled_array (Expr.spelledList items h)
  | .hash entries, h => spelled_hash (Expr.spelledEntries entries h)
  | .unary op operand, h => by
    have hs := spelled_group (spelled_unary op (operand.spelled h))
    simpa only [Expr.print, String.append_assoc] using hs
  | .binary left op right, h => by
    obtain ⟨hl, hr⟩ := allPrintable_append.1 h
    have hs := spelled_group (spelled_binary op (left.spelled hl) (right.spelled hr))
    simpa only [Expr.print, String.append_assoc] using hs
  | .assign x value, h => by
    obtain ⟨hx, hv⟩ := allPrintable_cons.1 h
    have hs := spelled_group (spelled_assign hx.1 (value.spelled hv))
    simpa only [Expr.print, String.append_assoc] using hs
  | .ifElse condition consequence none, h => by
    obtain ⟨h, -⟩ := allPrintable_append.1 h
    obtain ⟨hc, hb⟩ := allPrintable_append.1 h
    obtain ⟨ht, hb⟩ := allPrintable_cons.1 hb
    have hs := spelled_ifThen (condition.spelled hc) (Stmt.spelledList consequence ht.2 hb)
    simpa only [Expr.print, Stmt.printElse, String.append_assoc, String.append_empty] using hs
  | .ifElse condition consequence (some alternative), h => by
    obtain ⟨h, hd⟩ := allPrintable_append.1 h
    obtain ⟨hc, hb⟩ := allPrintable_append.1 h
    obtain ⟨ht, hb⟩ := allPrintable_cons.1 hb
    obtain ⟨hu, hd⟩ := allPrintable_cons.1 hd
    have hs := spelled_ifElse (condition.spelled hc) (Stmt.spelledList consequence ht.2 hb)
      (Stmt.spelledList alternative hu.2 hd)
    simpa only [Expr.print, Stmt.printElse, String.append_assoc] using hs
  | .forIn x iterable body, h => by
    obtain ⟨hx, h⟩ := allPrintable_cons.1 h
    obtain ⟨he, hb⟩ := allPrintable_append.1 h
    obtain ⟨ht, hb⟩ := allPrintable_cons.1 hb
    have hs := spelled_forIn hx.1 (iterable.spelled he) (Stmt.spelledList body ht.2 hb)
    simpa only [Expr.print, String.append_assoc] using hs
  | .whileDo condition body, h => by
    obtain ⟨hc, hb⟩ := allPrintable_append.1 h
    obtain ⟨ht, hb⟩ := allPrintable_cons.1 hb
    have hs := spelled_whileDo (condition.spelled hc) (Stmt.spelledList body ht.2 hb)
    simpa only [Expr.print, String.append_assoc] using hs
  | .function parameters body, h => by
    obtain ⟨hx, hb⟩ := allPrintable_append.1 h
    obtain ⟨ht, hb⟩ := allPrintable_cons.1 hb
    have hxs : Spelled (.list .param) (", ".intercalate parameters) parameters :=
      spelled_params fun x hm => (hx _ (List.mem_map_of_mem hm)).1
    have hs := spelled_function hxs (Stmt.spelledList body ht.2 hb)
    simpa only [Expr.print, String.append_assoc] using hs
  | .call callee arguments, h => by
    obtain ⟨hf, has⟩ := allPrintable_append.1 h
    have hs := spelled_call (callee.spelled hf) (Expr.spelledList arguments has)
    simpa only [Expr.print, String.append_assoc] using hs
  | .index collection key, h => by
    obtain ⟨hc, hk⟩ := allPrintable_append.1 h
    rw [Expr.print_index]
    exact spelled_group (spelled_index (collection.spelled hc) (key.spelled hk))

theorem Expr.spelledList : ∀ es : List Expr, AllPrintable (Expr.partsList es) →
    Spelled (.list (.expr 0)) (Expr.printList es) es
  | [], _ => spelled_none
  | [e], h => by
    obtain ⟨he, -⟩ := allPrintable_append.1 h
    have hs : Spelled (.list (.expr 0)) e.print [e] :=
      spelled_last ((e.spelled he).loosen (Nat.zero_le 6))
    rwa [← Expr.printList_singleton] at hs
  | e :: e' :: es, h => by
    obtain ⟨he, hes⟩ := allPrintable_append.1 h
    have hs : Spelled (.list (.expr 0)) (e.print ++ (", " ++ Expr.printList (e' :: es)))
        (e :: e' :: es) :=
      spelled_more ((e.spelled he).loosen (Nat.zero_le 6)) (Expr.spelledList (e' :: es) hes)
    rwa [← Expr.printList_cons_cons] at hs

theorem Expr.spelledEntries : ∀ es : List (Expr × Expr), AllPrintable (Expr.partsEntries es) →
    Spelled (.list .entry) (Expr.printEntries es) es
  | [], _ => spelled_none
  | [(k, v)], h => by
    obtain ⟨h, -⟩ := allPrintable_append.1 h
    obtain ⟨hk, hv⟩ := allPrintable_append.1 h
    have hs : Spelled (.list .entry) (k.print ++ (": " ++ v.print)) [(k, v)] :=
      spelled_last (spelled_entry (k.spelled hk) (v.spelled hv))
    rwa [← Expr.printEntries_singleton] at hs
  | (k, v) :: e :: es, h => by
    obtain ⟨h, hes⟩ := allPrintable_append.1 h
    obtain ⟨hk, hv⟩ := allPrintable_append.1 h
    have hs : Spelled (.list .entry)
        (k.print ++ (": " ++ v.print) ++ (", " ++ Expr.printEntries (e :: es)))
        ((k, v) :: e :: es) :=
      spelled_more (spelled_entry (k.spelled hk) (v.spelled hv)) (Expr.spelledEntries (e :: es) hes)
    rwa [← Expr.printEntries_cons_cons] at hs

theorem Stmt.spelledList : ∀ ss : List Stmt, (Part.stmts ss).Tidy →
    AllPrintable (Stmt.partsList ss) → Spelled .stmts (Stmt.printList ss) ss
  | [], _, _ => spelled_stop
  | .define x value :: ss, ht, h => by
    obtain ⟨hs, hss⟩ := allPrintable_append.1 h
    obtain ⟨hx, hv⟩ := allPrintable_cons.1 hs
    have hs := spelled_closed (spelled_define hx.1 (value.spelled hv))
      (Stmt.spelledList ss ht.tail hss)
    simpa only [Stmt.printList, Stmt.print, String.append_assoc] using hs
  | .ret value :: ss, ht, h => by
    obtain ⟨hv, hss⟩ := allPrintable_append.1 h
    have hs := spelled_closed (spelled_ret (value.spelled hv)) (Stmt.spelledList ss ht.tail hss)
    simpa only [Stmt.printList, Stmt.print, String.append_assoc] using hs
  | .brk :: ss, ht, h => by
    have hs := spelled_closed spelled_brk (Stmt.spelledList ss ht.tail h)
    rwa [← String.append_assoc, show "break" ++ ";" = "break;" from rfl] at hs
  | .cont :: ss, ht, h => by
    have hs := spelled_closed spelled_cont (Stmt.spelledList ss ht.tail h)
    rwa [← String.append_assoc, show "continue" ++ ";" = "continue;" from rfl] at hs
  | [.expr value], _, h => by
    obtain ⟨hv, -⟩ := allPrintable_append.1 h
    have hs := spelled_open (spelled_eval (value.spelled hv))
    simpa only [Stmt.printList, Stmt.print, String.append_empty] using hs
  | .expr value :: s :: ss, ht, _ => nomatch ht _ List.mem_cons_self

end

/-- The text of a program that can be printed spells the program, and nothing comes behind it. -/
theorem derives_print {p : Program} (h : p.Printable) : Derives .stmts (tokens p.print) p := by
  obtain ⟨ht, hp⟩ := allPrintable_cons.1 h
  obtain ⟨ts, hd, hs⟩ := Stmt.spelledList p ht.2 hp
  rwa [Program.print, hs.tokens_eq]

/-! ## What is read is legible -/

/-- The text of the token is one that can be printed as what it stands for. -/
def Token.Clean (t : Token) : Prop :=
  (t.kind = .ident → IsName t.text) ∧ (t.kind = .string → '"' ∉ t.text.toList)

/-- The parts of the tree of a phrase. -/
def Grammar.Phrase.parts : (p : Phrase) → p.Tree → List Part
  | .expr _, e => Expr.parts e
  | .target, x | .param, x => [.name x]
  | .entry, (k, v) => Expr.parts k ++ Expr.parts v
  | .list p, as => as.flatMap p.parts
  | .stmt, s => Stmt.parts s
  | .block, ss | .stmts, ss => .stmts ss :: Stmt.partsList ss

/-- No phrase holds a character that is out of place. -/
theorem not_illegal_of_derives {p : Phrase} {ts : List Token} {a : p.Tree} (h : Derives p ts a) :
    ∀ t ∈ ts, t.kind ≠ .illegal := by
  induction h with
  | binary op =>
    have hop : op.kind ≠ .illegal := by cases op <;> decide
    simp_all [or_imp]
  | unary op =>
    have hop : op.kind ≠ .illegal := by cases op <;> decide
    simp_all [or_imp]
  | _ => simp_all [or_imp]

theorem Expr.partsList_eq (es : List Expr) : Expr.partsList es = es.flatMap Expr.parts := by
  induction es with
  | nil => rfl
  | cons e es ih => rw [Expr.partsList, ih, List.flatMap_cons]

theorem Expr.partsEntries_eq (es : List (Expr × Expr)) :
    Expr.partsEntries es = es.flatMap fun e => e.1.parts ++ e.2.parts := by
  induction es with
  | nil => rfl
  | cons e es ih => rw [Expr.partsEntries, ih, List.flatMap_cons]

def AllLegible (parts : List Part) : Prop := ∀ part ∈ parts, part.Legible

theorem allLegible_append {as bs : List Part} :
    AllLegible (as ++ bs) ↔ AllLegible as ∧ AllLegible bs :=
  List.forall_mem_append

theorem allLegible_cons {a : Part} {as : List Part} :
    AllLegible (a :: as) ↔ a.Legible ∧ AllLegible as :=
  List.forall_mem_cons

theorem allLegible_nil : AllLegible [] := fun _ h => nomatch h

theorem allLegible_list_cons {p : Phrase} {a : p.Tree} {as : List p.Tree}
    (h : AllLegible (p.parts a)) (hs : AllLegible (Phrase.parts (.list p) as)) :
    AllLegible (Phrase.parts (.list p) (a :: as)) :=
  allLegible_append.2 ⟨h, hs⟩

theorem Expr.allLegible_partsList {es : List Expr}
    (h : AllLegible (Phrase.parts (.list (.expr 0)) es)) : AllLegible (Expr.partsList es) := by
  rw [Expr.partsList_eq]
  exact h

theorem Expr.allLegible_partsEntries {es : List (Expr × Expr)}
    (h : AllLegible (Phrase.parts (.list .entry) es)) : AllLegible (Expr.partsEntries es) := by
  rw [Expr.partsEntries_eq]
  exact h

theorem allLegible_names {xs : List String} (h : AllLegible (Phrase.parts (.list .param) xs)) :
    AllLegible (xs.map .name) := by
  intro part hm
  obtain ⟨x, hx, rfl⟩ := List.mem_map.1 hm
  exact h _ (List.mem_flatMap.2 ⟨x, hx, List.mem_cons_self⟩)

theorem legible_integer {n : Nat} (h : n ≤ 0x7FFFFFFFFFFFFFFF) :
    (Part.integer (Int64.ofNat n)).Legible := by
  have hn : (Int64.ofNat n).toInt = n := Int64.toInt_ofNat_of_lt (by omega)
  simp only [Part.Legible, hn]
  omega

/-- A tree has only the names, integers and strings of its tokens. -/
theorem legible_of_derives {p : Phrase} {ts : List Token} {a : p.Tree} (h : Derives p ts a)
    (hc : ∀ t ∈ ts, t.Clean) : AllLegible (p.parts a) := by
  induction h <;> try simp only [List.forall_mem_append, List.forall_mem_cons] at hc
  case assign ihx ihe =>
    exact allLegible_cons.2 ⟨ihx hc.1 _ List.mem_cons_self, ihe hc.2.2⟩
  case binary ihl ihr => exact allLegible_append.2 ⟨ihl hc.1, ihr hc.2.2⟩
  case unary ih => exact ih hc.2
  case call ihf ihes =>
    exact allLegible_append.2 ⟨ihf hc.1.1, Expr.allLegible_partsList (ihes hc.1.2.2)⟩
  case index ihc ihk => exact allLegible_append.2 ⟨ihc hc.1.1, ihk hc.1.2.2⟩
  case tighter ih => exact ih hc
  case ident => exact allLegible_cons.2 ⟨hc.1.1 rfl, allLegible_nil⟩
  case integer h => exact allLegible_cons.2 ⟨legible_integer h, allLegible_nil⟩
  case string => exact allLegible_cons.2 ⟨hc.1.2 rfl, allLegible_nil⟩
  case true => exact allLegible_nil
  case false => exact allLegible_nil
  case group ih => exact ih hc.1.2
  case array ih => exact Expr.allLegible_partsList (ih hc.1.2)
  case hash ih => exact Expr.allLegible_partsEntries (ih hc.1.2)
  case ifThen ihc ihb =>
    exact allLegible_append.2 ⟨allLegible_append.2 ⟨ihc hc.1.2.2, ihb hc.2.2⟩, allLegible_nil⟩
  case ifElse ihc ihb ihd =>
    exact allLegible_append.2 ⟨allLegible_append.2 ⟨ihc hc.1.1.2.2, ihb hc.1.2.2⟩, ihd hc.2.2⟩
  case forIn ihe ihb =>
    have hx : IsName _ := hc.1.2.2.1.1 rfl
    exact allLegible_cons.2 ⟨hx, allLegible_append.2 ⟨ihe hc.1.2.2.2.2, ihb hc.2.2⟩⟩
  case whileDo ihc ihb => exact allLegible_append.2 ⟨ihc hc.1.2.2, ihb hc.2.2⟩
  case function ihxs ihb =>
    exact allLegible_append.2 ⟨allLegible_names (ihxs hc.1.2.2), ihb hc.2.2⟩
  case targetName => exact allLegible_cons.2 ⟨hc.1.1 rfl, allLegible_nil⟩
  case targetGroup ih => exact ih hc.1.2
  case param => exact allLegible_cons.2 ⟨hc.1.1 rfl, allLegible_nil⟩
  case entry ihk ihv => exact allLegible_append.2 ⟨ihk hc.1, ihv hc.2.2⟩
  case none => exact allLegible_nil
  case last ih => exact allLegible_list_cons (ih hc) allLegible_nil
  case more ih ihs => exact allLegible_list_cons (ih hc.1) (ihs hc.2.2)
  case block ih => exact ih hc.1.2
  case define ih =>
    have hx : IsName _ := hc.2.1.1 rfl
    exact allLegible_cons.2 ⟨hx, ih hc.2.2.2⟩
  case ret ih => exact ih hc.2
  case eval ih => exact ih hc
  case brk => exact allLegible_nil
  case cont => exact allLegible_nil
  case stop => exact allLegible_cons.2 ⟨trivial, allLegible_nil⟩
  case closed ih ihs =>
    obtain ⟨-, hss⟩ := allLegible_cons.1 (ihs hc.2.2)
    exact allLegible_cons.2 ⟨trivial, allLegible_append.2 ⟨ih hc.1, hss⟩⟩
  case «open» ih ihs =>
    obtain ⟨-, hss⟩ := allLegible_cons.1 (ihs hc.2)
    exact allLegible_cons.2 ⟨trivial, allLegible_append.2 ⟨ih hc.1, hss⟩⟩

/-- The texts of the tokens of a program can be printed. -/
theorem clean_of_derives {source : String} {p : Program} (h : Derives .stmts (tokens source) p) :
    ∀ t ∈ tokens source, t.Clean := by
  intro t ht
  rw [tokens_eq_lex] at ht h
  constructor
  · intro hk
    exact isName_of_ident ht hk (not_illegal_of_derives h)
  · intro hk
    exact not_mem_text_of_string ht hk

/-- Printing and reading: a printable program is read off its own text, and whatever is read
without an error is legible. -/
theorem parse_print : (∀ p : Program, p.Printable →
      (parse p.print).errors = [] ∧ (parse p.print).program = p) ∧
    ∀ source : String, (parse source).errors = [] → Program.Legible (parse source).program := by
  constructor
  · intro p hp
    rw [parse_of_derives (derives_print hp)]
    exact ⟨rfl, rfl⟩
  · intro source he
    have hd := derives_of_parse he
    exact legible_of_derives hd (clean_of_derives hd)

/-- A function that loops over words in quotes, and a call of it. -/
def speller : Program :=
  [.define "spell" (.function ["a", "_b"]
    [.ret (.forIn "w" (.array [.ident "a", .string "#é"])
      [.brk, .expr (.assign "a" (.ident "w"))])]),
   .expr (.index (.call (.ident "spell") [.unary .not (.boolean true), .integer 7])
    (.binary (.integer 1) .equal (.ident "größe")))]

theorem parse_print_speller : speller.Printable ∧ (parse speller.print).program = speller ∧
    Program.Legible (parse speller.print).program := by
  have hp : speller.Printable := by decide
  obtain ⟨he, ht⟩ := parse_print.1 speller hp
  exact ⟨hp, ht, parse_print.2 speller.print he⟩

end MonkeyLang
