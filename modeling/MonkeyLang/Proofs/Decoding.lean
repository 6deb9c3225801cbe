/-
Listings read back. A reader that goes through a quoted text character by
character finds out each of them, and where the text ends, without knowing which
characters were thought to be hidden; the name of a kind ends at the first blank,
and a line at the first line feed, as neither is left bare in what stands before.
So a listing has a line for each token, and there are no two lists of tokens that
it could be the listing of.
-/
import Mathlib.Tactic.SplitIfs
import MonkeyLang.Proofs.Tiling
import MonkeyLang.Token.Listing

namespace MonkeyLang

/-! ## Quoted texts -/

namespace Text

/-- Where a reader is inside quotes. -/
inductive Place where
  /-- Between two characters. -/
  | plain
  /-- Behind a backslash. -/
  | escape
  /-- Behind the letter that a code point comes after. -/
  | code
  /-- Inside the braces of a code point, with the number so far. -/
  | digits (n : Nat)

/-- The letters that stand for characters behind a backslash. -/
def letters : List (Char × Char) :=
  [('0', '\x00'), ('t', '\t'), ('n', '\n'), ('r', '\r'), ('"', '"'), ('\\', '\\')]

/-- The value of a lower-case hexadecimal digit. -/
def hexValue? (c : Char) : Option Nat :=
  if '0' ≤ c ∧ c ≤ '9' then some (c.toNat - 48)
  else if 'a' ≤ c ∧ c ≤ 'f' then some (c.toNat - 87)
  else none

/-- The text read so far goes on with `c`. -/
def Reading.cons (c : Char) : Option (List Char × List Char) → Option (List Char × List Char) :=
  Option.map fun r => (c :: r.1, r.2)

/-- Reads up to the closing quote: the characters that are meant, and what follows the quote. -/
def readQuoted : Place → List Char → Option (List Char × List Char)
  | _, [] => none
  | .plain, c :: cs =>
    if c = '"' then some ([], cs)
    else if c = '\\' then readQuoted .escape cs
    else Reading.cons c (readQuoted .plain cs)
  | .escape, c :: cs =>
    if c = 'u' then readQuoted .code cs
    else (letters.lookup c).bind fun d => Reading.cons d (readQuoted .plain cs)
  | .code, c :: cs => if c = '\x7b' then readQuoted (.digits 0) cs else none
  | .digits n, c :: cs =>
    if c = '\x7d' then Reading.cons (.ofNat n) (readQuoted .plain cs)
    else (hexValue? c).bind fun d => readQuoted (.digits (16 * n + d)) cs

/-- The text that stands in quotes here. -/
def unquote? (quoted : String) : Option String :=
  match quoted.toList with
  | '"' :: cs =>
    match readQuoted .plain cs with
    | some (text, []) => some (.ofList text)
    | _ => none
  | _ => none

variable {c : Char} {rest cs : List Char} {n d : Nat}

theorem hexDigits_of_lt (hn : n < 16) : hexDigits n = [n.digitChar] := Nat.toDigits_of_lt_base hn

theorem hexDigits_of_le (hn : 16 ≤ n) :
    hexDigits n = hexDigits (n / 16) ++ [(n % 16).digitChar] := by
  have hlast : n % 16 < 16 := Nat.mod_lt n (by decide)
  rw [← hexDigits_of_lt hlast, hexDigits, hexDigits, hexDigits,
    Nat.toDigits_append_toDigits (by decide) (by omega) hlast, Nat.div_add_mod]

theorem exists_of_mem_hexDigits (h : c ∈ hexDigits n) : ∃ d < 16, c = d.digitChar := by
  induction n using Nat.strongRecOn with
  | ind n ih =>
    by_cases hn : n < 16
    · rw [hexDigits_of_lt hn, List.mem_singleton] at h
      exact ⟨n, hn, h⟩
    · rw [hexDigits_of_le (by omega), List.mem_append, List.mem_singleton] at h
      rcases h with h | h
      · exact ih _ (by omega) h
      · exact ⟨n % 16, Nat.mod_lt n (by decide), h⟩

theorem readQuoted_digit (hd : d < 16) (n : Nat) (rest : List Char) :
    readQuoted (.digits n) (d.digitChar :: rest) = readQuoted (.digits (16 * n + d)) rest := by
  have hdigit : ∀ d < 16, d.digitChar ≠ '\x7d' ∧ hexValue? d.digitChar = some d := by decide
  obtain ⟨hne, hvalue⟩ := hdigit d hd
  rw [readQuoted, if_neg hne, hvalue, Option.bind_some]

/-- The digits of a number are read as the number. -/
theorem readQuoted_hexDigits (n : Nat) (rest : List Char) :
    readQuoted (.digits 0) (hexDigits n ++ rest) = readQuoted (.digits n) rest := by
  -- The digits before the last one are those of `n / 16`, and the last one is part of what follows.
  induction n using Nat.strongRecOn generalizing rest with
  | ind n ih =>
    by_cases hn : n < 16
    · rw [hexDigits_of_lt hn, List.singleton_append, readQuoted_digit hn, Nat.mul_zero,
        Nat.zero_add]
    · rw [hexDigits_of_le (by omega), List.append_assoc, List.singleton_append, ih _ (by omega),
        readQuoted_digit (Nat.mod_lt n (by decide)), Nat.div_add_mod]

/-- Each character is read back, whatever the notion of a hidden one. -/
theorem readQuoted_escape (hidden : Char → Bool) (c : Char) (rest : List Char) :
    readQuoted .plain (escape hidden c ++ rest) = Reading.cons c (readQuoted .plain rest) := by
  unfold escape
  split_ifs with hnul htab hfeed hreturn hquote hback hhidden
  · subst hnul; rfl
  · subst htab; rfl
  · subst hfeed; rfl
  · subst hreturn; rfl
  · subst hquote; rfl
  · subst hback; rfl
  · calc
      readQuoted .plain (['\\', 'u', '\x7b'] ++ hexDigits c.toNat ++ ['\x7d'] ++ rest) =
          readQuoted (.digits 0) (hexDigits c.toNat ++ '\x7d' :: rest) := by
        rw [List.append_assoc, List.append_assoc]
        rfl
      _ = readQuoted (.digits c.toNat) ('\x7d' :: rest) := readQuoted_hexDigits _ _
      _ = Reading.cons c (readQuoted .plain rest) := by
        rw [readQuoted, if_pos rfl, Char.ofNat_toNat]
  · rw [List.singleton_append, readQuoted, if_neg hquote, if_neg hback]

theorem readQuoted_flatMap (hidden : Char → Bool) (text rest : List Char) :
    readQuoted .plain (text.flatMap (escape hidden) ++ '"' :: rest) = some (text, rest) := by
  induction text with
  | nil => rfl
  | cons c text ih =>
    rw [List.flatMap_cons, List.append_assoc, readQuoted_escape, ih]
    rfl

theorem unquote?_quoteWith (hidden : Char → Bool) (text : String) :
    unquote? (quoteWith hidden text) = some text := by
  simp only [unquote?, quoteWith, String.toList_ofList, List.cons_append, readQuoted_flatMap,
    String.ofList_toList]

/-- A line feed never stands for itself. -/
theorem not_mem_escape (hidden : Char → Bool) (c : Char) : '\n' ∉ escape hidden c := by
  have hdigit : ∀ d < 16, '\n' ≠ Nat.digitChar d := by decide
  unfold escape
  split_ifs with hnul htab hfeed hreturn hquote hback hhidden
  · decide
  · decide
  · decide
  · decide
  · decide
  · decide
  · intro h
    rcases List.mem_append.1 h with h | h
    · rcases List.mem_append.1 h with h | h
      · revert h
        decide
      · obtain ⟨d, hd, heq⟩ := exists_of_mem_hexDigits h
        exact hdigit d hd heq
    · revert h
      decide
  · rw [List.mem_singleton]
    exact fun h => hfeed h.symm

theorem not_mem_quoteWith (hidden : Char → Bool) (text : String) :
    '\n' ∉ (quoteWith hidden text).toList := by
  simp only [quoteWith, String.toList_ofList, List.cons_append, List.mem_cons, List.mem_append,
    List.mem_flatMap, List.not_mem_nil, or_false]
  rintro (h | ⟨c, -, h⟩ | h)
  · revert h
    decide
  · exact not_mem_escape hidden c h
  · revert h
    decide

end Text

/-! ## Lines -/

namespace Kind

def all : List Kind :=
  [illegal, eof, ident, int, string, assign, plus, minus, bang, asterisk, slash, lt, gt, eq, notEq,
   comma, semicolon, colon, lparen, rparen, lbrace, rbrace, lbracket, rbracket, kwFn, kwLet,
   kwTrue, kwFalse, kwIf, kwElse, kwReturn, kwFor, kwIn, kwWhile, kwBreak, kwContinue]

/-- The kind with this name. -/
def ofName? (name : String) : Option Kind := all.find? (·.name = name)

theorem ofName?_name (k : Kind) : ofName? k.name = some k := by
  cases k <;> decide

/-- A name is one word. -/
theorem not_mem_name (k : Kind) : ' ' ∉ k.name.toList ∧ '\n' ∉ k.name.toList := by
  cases k <;> decide

end Kind

/-- The line of a token, as far as its line feed. -/
def Token.line (hidden : Char → Bool) (t : Token) : List Char :=
  (t.kind.name ++ " " ++ Text.quoteWith hidden t.text).toList

/-- The token that has this line. -/
def Token.ofLine? (line : List Char) : Option Token :=
  match line.dropWhile (· ≠ ' ') with
  | [] => none
  | _ :: quoted => do
    let kind ← Kind.ofName? (.ofList (line.takeWhile (· ≠ ' ')))
    let text ← Text.unquote? (.ofList quoted)
    return ⟨kind, text⟩

/-- The tokens that have this listing. -/
def ofListing? (listing : String) : Option (List Token) :=
  (listing.toList.splitOn '\n').dropLast.mapM Token.ofLine?

section

variable (hidden : Char → Bool)

theorem Token.not_mem_line (t : Token) : '\n' ∉ t.line hidden := by
  have hblank : '\n' ∉ " ".toList := by decide
  simp only [line, String.toList_append, List.mem_append, not_or]
  exact ⟨⟨t.kind.not_mem_name.2, hblank⟩, Text.not_mem_quoteWith hidden t.text⟩

theorem Token.ofLine?_line (t : Token) : ofLine? (t.line hidden) = some t := by
  have hname : ∀ c ∈ t.kind.name.toList, decide (c ≠ ' ') = true := by
    intro c hc
    rw [decide_eq_true_eq]
    rintro rfl
    exact t.kind.not_mem_name.1 hc
  have hline : t.line hidden =
      t.kind.name.toList ++ ' ' :: (Text.quoteWith hidden t.text).toList := by
    simp only [line, String.toList_append, List.append_assoc]
    rfl
  rw [hline, ofLine?, List.dropWhile_append_of_pos hname, List.takeWhile_append_of_pos hname]
  simp [Kind.ofName?_name, Text.unquote?_quoteWith]

theorem toList_listingWith (ts : List Token) :
    (listingWith hidden ts).toList = (ts.map (Token.line hidden)).flatMap (· ++ ['\n']) := by
  rw [listingWith]
  induction ts with
  | nil => rfl
  | cons t ts ih =>
    rw [List.map_cons, String.join_cons, String.toList_append, ih]
    simp [Token.lineWith, Token.line]

end

theorem splitOn_lines {lines : List (List Char)} (h : ∀ l ∈ lines, '\n' ∉ l) :
    (lines.flatMap (· ++ ['\n'])).splitOn '\n' = lines ++ [[]] := by
  induction lines with
  | nil => rfl
  | cons l lines ih =>
    obtain ⟨hl, hlines⟩ := List.forall_mem_cons.1 h
    have hbare : ∀ c ∈ l, (c == '\n') = false := by
      intro c hc
      rw [beq_eq_false_iff_ne]
      rintro rfl
      exact hl hc
    rw [List.flatMap_cons, List.append_assoc, List.singleton_append, List.splitOn,
      List.splitOnP_append_cons_of_forall_mem hbare _ rfl]
    exact congrArg (l :: ·) (ih hlines)

/-- A listing has one line for each token, and nothing else. -/
theorem splitOn_listingWith (hidden : Char → Bool) (ts : List Token) :
    (listingWith hidden ts).toList.splitOn '\n' = ts.map (Token.line hidden) ++ [[]] := by
  rw [toList_listingWith, splitOn_lines]
  intro l hl
  obtain ⟨t, -, rfl⟩ := List.mem_map.1 hl
  exact t.not_mem_line hidden

/-- A listing is read back, whatever the notion of a hidden character. -/
theorem ofListing?_listingWith (hidden : Char → Bool) (ts : List Token) :
    ofListing? (listingWith hidden ts) = some ts := by
  rw [ofListing?, splitOn_listingWith, List.dropLast_concat]
  induction ts with
  | nil => rfl
  | cons t ts ih => rw [List.map_cons, List.mapM_cons, Token.ofLine?_line, ih]; rfl

/-- One call of `next` after another gives the tokens of the source, and then its end. -/
theorem token_call (source : String) (k : Nat) : ((Cursor.ofSource source).call k).token =
    (tokens source)[k]?.getD ⟨.eof, ""⟩ := by
  have ht : Tiles 0 source.toList (lexemes source) := tiles_lexemes (Nat.le_refl _)
  rw [Cursor.ofSource, ht.call_eq, tokens, List.getElem?_map]
  cases (lexemes source)[k]? <;> rfl

theorem kind_ne_eof {source : String} {t : Token} (h : t ∈ tokens source) : t.kind ≠ .eof := by
  have ht : Tiles 0 source.toList (lexemes source) := tiles_lexemes (Nat.le_refl _)
  obtain ⟨l, hl, rfl⟩ := List.mem_map.1 h
  obtain ⟨_, _, _, -, -, htoken⟩ := ht.place l hl
  exact htoken.kind_ne_eof

/-- The listing of a source has one line for each token before its end, and nothing else. Whatever
characters are thought to be hidden, the text of every token is read back from its quotes, so no two
lists of tokens have the same listing. -/
theorem tokenListing_unambiguous (hidden : Char → Bool) (source : String) :
    (listingWith hidden (tokens source)).toList.splitOn '\n' =
        (tokens source).map (Token.line hidden) ++ [[]] ∧
      (∀ k, ((Cursor.ofSource source).call k).token = (tokens source)[k]?.getD ⟨.eof, ""⟩) ∧
      (∀ t ∈ tokens source, t.kind ≠ .eof) ∧
      (∀ text, Text.unquote? (Text.quoteWith hidden text) = some text) ∧
      ofListing? (listingWith hidden (tokens source)) = some (tokens source) ∧
      (∀ hidden' source',
        listingWith hidden (tokens source) = listingWith hidden' (tokens source') →
          tokens source = tokens source') ∧
      ∀ source', tokenListing source = tokenListing source' → tokens source = tokens source' := by
  have hinj (h₁ h₂ : Char → Bool) (source' : String)
      (h : listingWith h₁ (tokens source) = listingWith h₂ (tokens source')) :
      tokens source = tokens source' := by
    have hread := ofListing?_listingWith h₁ (tokens source)
    rw [h, ofListing?_listingWith] at hread
    exact (Option.some.inj hread).symm
  exact ⟨splitOn_listingWith hidden _, token_call source, fun _ => kind_ne_eof,
    Text.unquote?_quoteWith hidden, ofListing?_listingWith hidden _, hinj hidden, hinj _ _⟩

/-- A string with a line feed and a backslash in it, a name, and a character that begins no
token. -/
def scrawl : String := "\"a\n\\n\"b\\"

theorem tokenListing_unambiguous_scrawl :
    let spaced := "\"a\n\\n\" b # c\n\\"
    tokenListing scrawl = tokenListing spaced ∧ tokens scrawl = tokens spaced ∧
      ofListing? (tokenListing scrawl) = some (tokens spaced) := by
  intro spaced
  obtain ⟨-, -, -, -, hread, -, hinj⟩ := tokenListing_unambiguous Text.isHidden scrawl
  have hlisting : tokenListing scrawl = tokenListing spaced := by decide +kernel
  exact ⟨hlisting, hinj spaced hlisting, (hinj spaced hlisting) ▸ hread⟩

end MonkeyLang
