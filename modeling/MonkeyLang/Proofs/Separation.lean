/-
Texts that are put together from lexemes. Between two lexemes stands white
space, or comments up to the end of their line, in any number and order; the
last comment of a text may lack its line feed. The lexemes are read back with
their places whatever separates them, so a program is the same with any spacing.
-/
import MonkeyLang.Program.Parser
import MonkeyLang.Proofs.Tiling

namespace MonkeyLang

/-! ## Lexemes and separators -/

/-- The characters spell this token. -/
inductive IsLexeme : List Char → Token → Prop
  | symbol {c : Char} {k : Kind} : Kind.ofSymbol? c = some k → IsLexeme [c] ⟨k, .ofList [c]⟩
  | symbolEq {c : Char} {k : Kind} : Kind.ofSymbolEq? c = some k →
      IsLexeme [c, '='] ⟨k, .ofList [c, '=']⟩
  | keyword {cs : List Char} {k : Kind} : (String.ofList cs, k) ∈ Kind.keywords →
      IsLexeme cs ⟨k, .ofList cs⟩
  | name {cs : List Char} : IsName (.ofList cs) → IsLexeme cs ⟨.ident, .ofList cs⟩
  | number {cs : List Char} : cs ≠ [] → (∀ c ∈ cs, Text.isDigit c) → IsLexeme cs ⟨.int, .ofList cs⟩
  | string {cs : List Char} : '"' ∉ cs → IsLexeme ('"' :: cs ++ ['"']) ⟨.string, .ofList cs⟩
  /-- A character that begins neither a token nor a separator. -/
  | illegal {c : Char} : beginsToken c → c ≠ '"' → Text.isDigit c = false →
      Text.isNameChar c = false → Kind.ofSymbol? c = none → IsLexeme [c] ⟨.illegal, .ofList [c]⟩

/-- White space and whole comments. -/
inductive IsSeparator : List Char → Prop
  | nil : IsSeparator []
  | blank {c : Char} {s : List Char} : Text.isSeparator c → IsSeparator s → IsSeparator (c :: s)
  | comment {text s : List Char} : '\n' ∉ text → IsSeparator s →
      IsSeparator ('#' :: text ++ '\n' :: s)

/-- What may stand after the last lexeme. -/
inductive IsEnding : List Char → Prop
  | whole {s : List Char} : IsSeparator s → IsEnding s
  | cut {s text : List Char} : IsSeparator s → '\n' ∉ text → IsEnding (s ++ '#' :: text)

/-- A token as it is written. -/
structure Spelling where
  chars : List Char
  token : Token
  isLexeme : IsLexeme chars token

/-- What stands before, between and after `n` lexemes. -/
structure Spacing (n : Nat) where
  before : List Char
  between : List (List Char)
  after : List Char
  before_separates : IsSeparator before
  length_between : between.length = n - 1
  between_separate : ∀ s ∈ between, IsSeparator s ∧ s ≠ []
  after_ends : IsEnding after

/-- The lexemes with the separators between them and the ending. -/
def interleave (after : List Char) : List Spelling → List (List Char) → List Char
  | [], _ => after
  | w :: ws, gaps => w.chars ++ (gaps.headD [] ++ interleave after ws gaps.tail)

/-- The tokens with their places, the first of them at byte `n`. -/
def placed (n : Nat) : List Spelling → List (List Char) → List Lexeme
  | [], _ => []
  | w :: ws, gaps =>
    let stop := n + byteLength w.chars
    ⟨w.token, n, stop⟩ :: placed (stop + byteLength (gaps.headD [])) ws gaps.tail

namespace Spacing

variable {ws : List Spelling}

/-- The text that the lexemes make with these separators. -/
def text (s : Spacing ws.length) : String := .ofList (s.before ++ interleave s.after ws s.between)

/-- Where the lexemes stand in the text. -/
def lexemes (s : Spacing ws.length) : List Lexeme := placed (byteLength s.before) ws s.between

end Spacing

/-! ## Reading them back -/

/-- No token goes on with the text. -/
def Parts (rest : List Char) : Prop := ∀ c ∈ rest.head?, beginsToken c = false

section

variable {rest chars s gap after cs : List Char} {t : Token} {n : Nat} {ws : List Spelling}
  {gaps : List (List Char)}

theorem IsSeparator.parts (hs : IsSeparator s) (hne : s ≠ []) (rest : List Char) :
    Parts (s ++ rest) := by
  cases hs with
  | nil => exact absurd rfl hne
  | @blank c s hc _ =>
    intro d hd
    obtain rfl : c = d := by simpa using hd
    simp [beginsToken, hc]
  | comment _ _ =>
    intro d hd
    obtain rfl : '#' = d := by simpa using hd
    decide

theorem IsEnding.parts (hs : IsEnding s) : Parts s := by
  cases hs with
  | whole hs =>
    by_cases hne : s = []
    · subst hne
      exact fun _ h => nomatch h
    · rw [← List.append_nil s]
      exact hs.parts hne []
  | @cut s text hs ht =>
    by_cases hne : s = []
    · subst hne
      intro d hd
      obtain rfl : '#' = d := by simpa using hd
      decide
    · exact hs.parts hne _

/-- Only a separator has characters that begin no token. -/
theorem Parts.head (h : Parts rest) {p : Char → Bool} (hp : ∀ c, p c = true → beginsToken c) :
    ∀ c ∈ rest.head?, p c = false := by
  intro c hc
  rw [Bool.eq_false_iff]
  intro hpc
  exact absurd (hp c hpc) (by simp [h c hc])

theorem Parts.not_goesOnEqual (h : Parts rest) : ¬GoesOnEqual rest := by
  intro heq
  exact absurd (h '=' heq) (by decide)

theorem Parts.not_misleads (h : Parts rest) : ¬Misleads rest := by
  rintro ⟨c, hc, hle, -⟩
  have hascii : ¬c.val < 0x80 := by
    rw [UInt32.lt_iff_toNat_lt]
    exact Nat.not_lt.2 hle
  exact absurd (beginsToken_of_not_ascii hascii) (by simp [h c hc])

theorem Kind.isNameChar_of_mem : ∀ p ∈ keywords, p.1 ≠ "" ∧ p.1.toList.all Text.isNameChar := by
  decide

/-- A word in front of a separator. -/
theorem Parts.isRun (h : Parts rest) (hne : String.ofList cs ≠ "")
    (hall : (String.ofList cs).toList.all Text.isNameChar) : IsRun Text.isNameChar rest cs := by
  rw [String.toList_ofList, List.all_eq_true] at hall
  refine ⟨?_, hall, h.head fun c => beginsToken_of_isNameChar⟩
  rintro rfl
  exact hne rfl

/-- In front of a separator, a lexeme is a token. -/
theorem IsLexeme.isToken (hl : IsLexeme chars t) (h : Parts rest) : IsToken rest chars t := by
  cases hl with
  | symbol hk => exact .symbol hk (.inr h.not_goesOnEqual)
  | symbolEq hk => exact .symbolEq hk
  | keyword hk =>
    obtain ⟨hne, hall⟩ := Kind.isNameChar_of_mem _ hk
    exact .keyword (h.isRun hne hall) hk h.not_misleads
  | name hx =>
    obtain ⟨hne, hall, hk⟩ := hx
    exact .name (h.isRun hne hall) (.inl hk)
  | number hne hall => exact .number ⟨hne, hall, h.head fun c => beginsToken_of_isDigit⟩
  | string hq => exact .closed hq
  | illegal hb hq hd hn hs => exact .illegal hb hq hd hn hs

theorem IsSeparator.isGap (hs : IsSeparator s) (hg : IsGap rest gap) : IsGap rest (s ++ gap) := by
  induction hs with
  | nil => exact hg
  | blank hc _ ih => exact .separator hc ih
  | @comment text s ht _ ih =>
    have hline : IsGap rest ('\n' :: s ++ gap) := .separator (by decide) ih
    have hcomment : IsGap rest ('#' :: text ++ ('\n' :: s ++ gap)) := .comment ht (by simp) hline
    simpa using hcomment

theorem IsEnding.isGap (hs : IsEnding s) : IsGap [] s := by
  cases hs with
  | whole hs =>
    rw [← List.append_nil s]
    exact hs.isGap .nil
  | @cut s text hs ht =>
    have hcomment : IsGap [] ('#' :: text ++ []) := .comment ht (fun _ h => nomatch h) .nil
    rw [List.append_nil] at hcomment
    exact hs.isGap hcomment

/-- What comes after a lexeme parts it from the next one. -/
theorem parts_interleave (hafter : IsEnding after)
    (hgaps : ∀ s ∈ gaps, IsSeparator s ∧ s ≠ []) (hlen : gaps.length = ws.length) :
    IsSeparator (gaps.headD []) ∧ Parts (gaps.headD [] ++ interleave after ws gaps.tail) := by
  cases gaps with
  | nil =>
    obtain rfl := List.length_eq_zero_iff.1 hlen.symm
    exact ⟨.nil, hafter.parts⟩
  | cons s gaps =>
    obtain ⟨hs, hne⟩ := hgaps s List.mem_cons_self
    exact ⟨hs, hs.parts hne _⟩

/-- The separators and the lexemes take turns in the text. -/
theorem tiles_interleave (hafter : IsEnding after) (hgap : IsSeparator gap)
    (hgaps : ∀ s ∈ gaps, IsSeparator s ∧ s ≠ []) (hlen : gaps.length = ws.length - 1) :
    Tiles n (gap ++ interleave after ws gaps) (placed (n + byteLength gap) ws gaps) := by
  induction ws generalizing n gap gaps with
  | nil => exact .done (hgap.isGap hafter.isGap)
  | cons w ws ih =>
    obtain ⟨hs, hparts⟩ := parts_interleave hafter hgaps hlen
    have htail : ∀ s ∈ gaps.tail, IsSeparator s ∧ s ≠ [] :=
      fun s h => hgaps s (List.mem_of_mem_tail h)
    have hshort : gaps.tail.length = ws.length - 1 := by simp [hlen]
    have hisGap (rest : List Char) : IsGap rest gap := by
      rw [← List.append_nil gap]
      exact hgap.isGap .nil
    exact .token (hisGap _) (w.isLexeme.isToken hparts) (ih hs htail hshort)

theorem map_token_placed (n : Nat) (ws : List Spelling) (gaps : List (List Char)) :
    (placed n ws gaps).map (·.token) = ws.map (·.token) := by
  induction ws generalizing n gaps with
  | nil => rfl
  | cons w ws ih => simp [placed, ih]

end

/-- Lexemes are read back whatever separates them: the text has these lexemes at these places, one
after another, and then for ever the end. So neither the tokens nor the program nor its errors
depend on the separators. -/
theorem lexemes_text (ws : List Spelling) (s : Spacing ws.length) :
    MonkeyLang.lexemes s.text = s.lexemes ∧
      (∀ k, (Cursor.ofSource s.text).call k =
        s.lexemes[k]?.getD ⟨⟨.eof, ""⟩, s.text.utf8ByteSize, s.text.utf8ByteSize⟩) ∧
      tokens s.text = ws.map (·.token) ∧
      ∀ s' : Spacing ws.length, tokens s.text = tokens s'.text ∧ parse s.text = parse s'.text := by
  have htiles (s : Spacing ws.length) : Tiles 0 s.text.toList s.lexemes := by
    have h := tiles_interleave (n := 0) s.after_ends s.before_separates s.between_separate
      s.length_between
    rwa [Nat.zero_add, ← String.toList_ofList (l := s.before ++ _)] at h
  have hlexemes (s : Spacing ws.length) : MonkeyLang.lexemes s.text = s.lexemes :=
    (htiles s).lexemes_eq (Nat.le_refl _)
  have htokens (s : Spacing ws.length) : tokens s.text = ws.map (·.token) := by
    rw [tokens, hlexemes]
    exact map_token_placed _ _ _
  refine ⟨hlexemes s, fun k => ?_, htokens s, fun s' => ?_⟩
  · have hcall := (htiles s).call_eq k
    rwa [Nat.zero_add, ← utf8ByteSize_eq] at hcall
  · have heq : tokens s.text = tokens s'.text := by rw [htokens, htokens]
    refine ⟨heq, ?_⟩
    unfold parse
    rw [heq]

end MonkeyLang
