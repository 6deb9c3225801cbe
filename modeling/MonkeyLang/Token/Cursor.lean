/-
Reading tokens off a source text. A cursor stands between two tokens; `next`
gives the longest token after it, and for ever the end of the source once
nothing is left.
-/
import MonkeyLang.Text.Blank
import MonkeyLang.Text.Letter
import MonkeyLang.Token

namespace MonkeyLang

/-- The bytes that the characters take in UTF-8. -/
def byteLength (cs : List Char) : Nat := cs.foldr (fun c n => c.utf8Size + n) 0

/-- Splits off the white space and the comments in front. A comment runs from a number sign to
the end of its line. -/
def splitGap (inComment : Bool) : List Char → List Char × List Char
  | [] => ([], [])
  | c :: cs =>
    if inComment then
      let (gap, rest) := splitGap (c ≠ '\n') cs
      (c :: gap, rest)
    else if c = '#' || Text.isSeparator c then
      let (gap, rest) := splitGap (c = '#') cs
      (c :: gap, rest)
    else ([], c :: cs)

/-- The gap and the rest together are the text. -/
theorem splitGap_append (inComment : Bool) (cs : List Char) :
    (splitGap inComment cs).1 ++ (splitGap inComment cs).2 = cs := by
  induction cs generalizing inComment with
  | nil => rfl
  | cons c cs ih =>
    simp only [splitGap]
    split
    · simp [ih]
    · split <;> simp [ih]

/-- The characters beyond ASCII whose leading byte in UTF-8 is one that begins no letter. -/
def foreignLeads : Text.Ranges := [(0x300, 0x33F), (0xE000, 0xEFFF), (0x40000, 0x10FFFF)]

/-- Whether a word that spells a keyword is one when these characters follow it. Beyond ASCII it
stays a name, unless the leading byte of the next character already tells that no letter comes. -/
def keywordEnds : List Char → Bool
  | [] => true
  | c :: _ => c.val < 0x80 || foreignLeads.has c

/-- A token at the front of a text: its characters, quotes included, and what follows them. -/
structure Munch where
  kind : Kind
  chars : List Char
  rest : List Char

/-- The longest token of a text that begins with `c`. A string ends at the first quote or with the
text; a character that begins no token stands alone. -/
def munch (c : Char) (cs : List Char) : Munch :=
  if c = '"' then
    let body := cs.takeWhile (· ≠ '"')
    match cs.dropWhile (· ≠ '"') with
    | [] => ⟨.string, c :: body, []⟩
    | q :: rest => ⟨.string, c :: body ++ [q], rest⟩
  else if Text.isDigit c then
    ⟨.int, c :: cs.takeWhile Text.isDigit, cs.dropWhile Text.isDigit⟩
  else if Text.isNameChar c then
    let word := c :: cs.takeWhile Text.isNameChar
    let rest := cs.dropWhile Text.isNameChar
    ⟨if keywordEnds rest then .ofWord (String.ofList word) else .ident, word, rest⟩
  else
    match Kind.ofSymbolEq? c, cs with
    | some kind, '=' :: rest => ⟨kind, [c, '='], rest⟩
    | _, _ => ⟨(Kind.ofSymbol? c).getD .illegal, [c], cs⟩

/-- The characters of the token and the rest together are the text. -/
theorem munch_append (c : Char) (cs : List Char) :
    (munch c cs).chars ++ (munch c cs).rest = c :: cs := by
  unfold munch
  split
  · have h := List.takeWhile_append_dropWhile (p := (· ≠ '"')) (l := cs)
    split <;> rename_i hd <;> rw [hd] at h <;> simpa using h
  · split
    · simp [List.takeWhile_append_dropWhile]
    · split
      · simp [List.takeWhile_append_dropWhile]
      · split <;> simp

/-- No token is empty. -/
theorem munch_chars_ne_nil (c : Char) (cs : List Char) : (munch c cs).chars ≠ [] := by
  unfold munch
  repeat' split
  all_goals simp

/-- The token that was munched; a string loses its quotes. -/
def Munch.token (m : Munch) : Token :=
  ⟨m.kind, String.ofList (if m.kind = .string then m.chars.filter (· ≠ '"') else m.chars)⟩

/-- A place in a source: what is still to be read, and the bytes before it. -/
structure Cursor where
  rest : List Char
  offset : Nat

namespace Cursor

/-- Before the first character. -/
def ofSource (source : String) : Cursor := ⟨source.toList, 0⟩

/-- The next token and the place behind it. -/
def next (c : Cursor) : Lexeme × Cursor :=
  let (gap, rest) := splitGap false c.rest
  let start := c.offset + byteLength gap
  match rest with
  | [] => (⟨⟨.eof, ""⟩, ⟨start, start⟩⟩, ⟨[], start⟩)
  | ch :: cs =>
    let m := munch ch cs
    let stop := start + byteLength m.chars
    (⟨m.token, ⟨start, stop⟩⟩, ⟨m.rest, stop⟩)

/-- The tokens up to the end of the source, at most `n` of them. -/
def lexemes : Nat → Cursor → List Lexeme
  | 0, _ => []
  | n + 1, c =>
    let (lexeme, after) := c.next
    if lexeme.token.kind = .eof then [] else lexeme :: lexemes n after

end Cursor

/-- The tokens of a source with their places. No token is empty, so there are no more of them than
characters. -/
def lexemes (source : String) : List Lexeme :=
  (Cursor.ofSource source).lexemes source.length

/-- The tokens of a source. -/
def tokens (source : String) : List Token := (lexemes source).map (·.token)

end MonkeyLang
