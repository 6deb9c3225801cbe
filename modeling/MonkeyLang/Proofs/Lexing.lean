/-
The tokens of a text, character by character. `lex` reads tokens off a list of
characters; `lex_eq` says what the next one is, wherever the list begins. From
it come the tokens of the pieces that programs are printed with.
-/
import MonkeyLang.Token.Cursor

namespace MonkeyLang

/-- A word is a name, or stands in the table of keywords. -/
theorem Kind.ofWord_cases (w : String) :
    (ofWord w = .ident ∧ w ∉ keywords.map (·.1)) ∨ (w, ofWord w) ∈ keywords := by
  unfold ofWord
  cases h : keywords.lookup w with
  | none =>
    rw [List.lookup_eq_none_iff] at h
    refine .inl ⟨rfl, fun hw => ?_⟩
    obtain ⟨p, hp, rfl⟩ := List.mem_map.1 hw
    simpa using h p hp
  | some k =>
    obtain ⟨l₁, l₂, hl, -⟩ := List.lookup_eq_some_iff.1 h
    exact .inr (by simp [hl])

theorem Kind.ofWord_ne (w : String) {k : Kind} (hi : k ≠ .ident) (hk : ∀ p ∈ keywords, p.2 ≠ k) :
    ofWord w ≠ k := by
  obtain ⟨h, -⟩ | h := ofWord_cases w
  · exact h ▸ hi.symm
  · exact hk _ h

/-- The kinds of tokens whose texts vary, and the end of the source. -/
def Kind.varying : List Kind := [.ident, .int, .string, .eof]

theorem Kind.symbol_ne {c : Char} {j k : Kind} (h : ofSymbol? c = some k) (hj : j ∈ varying) :
    k ≠ j := by
  rintro rfl
  unfold ofSymbol? at h
  split at h <;> cases h <;> revert hj <;> decide

theorem Kind.symbolEq_ne {c : Char} {j k : Kind} (h : ofSymbolEq? c = some k)
    (hj : j ∈ varying) : k ≠ j := by
  rintro rfl
  unfold ofSymbolEq? at h
  split at h <;> cases h <;> revert hj <;> decide

theorem munch_kind_ne_eof (c : Char) (cs : List Char) : (munch c cs).kind ≠ .eof := by
  unfold munch
  split
  · split <;> simp
  · split
    · simp
    · split
      · simp only
        split
        · exact Kind.ofWord_ne _ (by decide) (by decide)
        · simp
      · split
        · next h => exact Kind.symbolEq_ne h (by decide)
        · cases h : Kind.ofSymbol? c with
          | none => simp
          | some k => exact Kind.symbol_ne h (by decide)

namespace Cursor

variable {c d : Cursor} {m n : Nat}

/-- The next token and what follows it, without their places. -/
theorem next_eq (c : Cursor) : c.next.1.token = (match (splitGap false c.rest).2 with
      | [] => ⟨.eof, ""⟩
      | ch :: cs => (munch ch cs).token) ∧
    c.next.2.rest = (match (splitGap false c.rest).2 with
      | [] => []
      | ch :: cs => (munch ch cs).rest) := by
  simp only [next]
  cases (splitGap false c.rest).2 <;> exact ⟨rfl, rfl⟩

theorem length_rest_lt (h : c.next.1.token.kind ≠ .eof) :
    c.next.2.rest.length < c.rest.length := by
  obtain ⟨ht, hr⟩ := next_eq c
  have hlen := congrArg List.length (splitGap_append false c.rest)
  rw [ht] at h
  rw [hr]
  cases hs : (splitGap false c.rest).2 with
  | nil => simp [hs] at h
  | cons ch cs =>
    have hm := congrArg List.length (munch_append ch cs)
    have hpos := List.length_pos_iff.2 (munch_chars_ne_nil ch cs)
    simp only [hs, List.length_append, List.length_cons] at hlen hm ⊢
    omega

theorem lexemes_nil (h : c.rest = []) : c.lexemes n = [] := by
  cases n with
  | zero => rfl
  | succ n =>
    have hk : c.next.1.token.kind = .eof := by simp [next_eq, h, splitGap]
    simp only [lexemes]
    rw [if_pos hk]

/-- The tokens do not depend on the place where they are read, nor on the bound once it is as high
as the number of characters. -/
theorem tokens_eq (hr : c.rest = d.rest) (hn : c.rest.length ≤ n) (hm : c.rest.length ≤ m) :
    (c.lexemes n).map (·.token) = (d.lexemes m).map (·.token) := by
  induction n generalizing c d m with
  | zero =>
    have hc := List.length_eq_zero_iff.1 (Nat.le_zero.1 hn)
    rw [lexemes_nil hc, lexemes_nil (hr ▸ hc)]
  | succ n ih =>
    cases m with
    | zero =>
      have hc := List.length_eq_zero_iff.1 (Nat.le_zero.1 hm)
      rw [lexemes_nil hc, lexemes_nil (hr ▸ hc)]
    | succ m =>
      have ht : c.next.1.token = d.next.1.token := by rw [(next_eq c).1, (next_eq d).1, hr]
      have hrest : c.next.2.rest = d.next.2.rest := by rw [(next_eq c).2, (next_eq d).2, hr]
      simp only [lexemes]
      by_cases hk : c.next.1.token.kind = .eof
      · rw [if_pos hk, if_pos (ht ▸ hk)]
      · have hlt := length_rest_lt hk
        rw [if_neg hk, if_neg (ht ▸ hk)]
        simp only [List.map_cons, ht]
        have h := ih (m := m) hrest (by omega) (by omega)
        rw [h]

end Cursor

/-- The tokens of the characters. -/
def lex (cs : List Char) : List Token := ((⟨cs, 0⟩ : Cursor).lexemes cs.length).map (·.token)

theorem tokens_eq_lex (source : String) : tokens source = lex source.toList := rfl

/-- A literal is a list of characters that need not be read from its bytes. -/
theorem tokens_ofList (cs : List Char) : tokens (String.ofList cs) = lex cs := by
  rw [tokens_eq_lex, String.toList_ofList]

theorem Cursor.tokens_eq_lex {c : Cursor} {n : Nat} (hn : c.rest.length ≤ n) :
    (c.lexemes n).map (·.token) = lex c.rest :=
  Cursor.tokens_eq rfl hn (Nat.le_refl _)

/-- The tokens of a text: the one in front, after the gap, and those of the rest. -/
theorem lex_eq (cs : List Char) : lex cs = match (splitGap false cs).2 with
    | [] => []
    | c :: ds => (munch c ds).token :: lex (munch c ds).rest := by
  cases cs with
  | nil => rfl
  | cons c cs =>
    obtain ⟨ht, hr⟩ := Cursor.next_eq ⟨c :: cs, 0⟩
    have hl : lex (c :: cs) = ((⟨c :: cs, 0⟩ : Cursor).lexemes (cs.length + 1)).map (·.token) := rfl
    rw [hl, Cursor.lexemes]
    cases hs : (splitGap false (c :: cs)).2 with
    | nil =>
      simp only [hs] at ht
      simp [ht]
    | cons ch ds =>
      simp only [hs] at ht hr
      have hk : (Cursor.next ⟨c :: cs, 0⟩).1.token.kind ≠ .eof := ht ▸ munch_kind_ne_eof ch ds
      have hlt := Cursor.length_rest_lt hk
      simp only [if_neg hk, List.map_cons]
      rw [Cursor.tokens_eq_lex (Nat.le_of_lt_succ hlt), ht, hr]

/-! ## Gaps -/

theorem lex_space (cs : List Char) : lex (' ' :: cs) = lex cs := by
  have h : (splitGap false (' ' :: cs)).2 = (splitGap false cs).2 := by
    simp [splitGap, Text.isSeparator]
  rw [lex_eq (' ' :: cs), lex_eq cs, h]

/-- The character belongs to no gap. -/
def beginsToken (c : Char) : Bool := !(c = '#' || Text.isSeparator c)

theorem lex_cons {c : Char} (cs : List Char) (h : beginsToken c) :
    lex (c :: cs) = (munch c cs).token :: lex (munch c cs).rest := by
  have hs : (splitGap false (c :: cs)).2 = c :: cs := by
    simp only [beginsToken, Bool.not_eq_true'] at h
    simp only [splitGap, Bool.false_eq_true, if_false, h]
  rw [lex_eq, hs]

/-! ## Symbols -/

/-- The text goes on with an equals sign. -/
def GoesOnEqual (cs : List Char) : Prop := cs.head? = some '='

/-- What a symbol is no part of. -/
theorem symbol_apart {c : Char} {k : Kind} (h : Kind.ofSymbol? c = some k) :
    beginsToken c ∧ c ≠ '"' ∧ Text.isDigit c = false ∧ Text.isNameChar c = false := by
  unfold Kind.ofSymbol? at h
  split at h <;> first | decide | cases h

theorem munch_symbol {c : Char} {k : Kind} {cs : List Char} (h : Kind.ofSymbol? c = some k)
    (he : Kind.ofSymbolEq? c = none ∨ ¬GoesOnEqual cs) : munch c cs = ⟨k, [c], cs⟩ := by
  obtain ⟨-, hq, hd, hn⟩ := symbol_apart h
  simp only [munch, hq, hd, hn, h, if_false, Bool.false_eq_true]
  split
  · next hk =>
    obtain he | he := he
    · rw [he] at hk
      cases hk
    · exact absurd rfl he
  · rfl

theorem lex_symbol {c : Char} {k : Kind} (cs : List Char) (h : Kind.ofSymbol? c = some k)
    (he : Kind.ofSymbolEq? c = none ∨ ¬GoesOnEqual cs) :
    lex (c :: cs) = ⟨k, String.ofList [c]⟩ :: lex cs := by
  have hk : k ≠ .string := Kind.symbol_ne h (by decide)
  rw [lex_cons cs (symbol_apart h).1, munch_symbol h he]
  simp [Munch.token, hk]

theorem munch_symbolEq {c : Char} {k : Kind} (cs : List Char) (h : Kind.ofSymbolEq? c = some k) :
    munch c ('=' :: cs) = ⟨k, [c, '='], cs⟩ := by
  unfold Kind.ofSymbolEq? at h
  split at h <;> cases h <;> rfl

/-- What begins an operator of two characters is an operator of its own. -/
theorem exists_symbol_of_symbolEq {c : Char} {k : Kind} (h : Kind.ofSymbolEq? c = some k) :
    ∃ j, Kind.ofSymbol? c = some j := by
  unfold Kind.ofSymbolEq? at h
  split at h <;> cases h <;> exact ⟨_, rfl⟩

theorem lex_symbolEq {c : Char} {k : Kind} (cs : List Char) (h : Kind.ofSymbolEq? c = some k) :
    lex (c :: '=' :: cs) = ⟨k, String.ofList [c, '=']⟩ :: lex cs := by
  obtain ⟨j, hj⟩ := exists_symbol_of_symbolEq h
  have hk : k ≠ .string := Kind.symbolEq_ne h (by decide)
  rw [lex_cons _ (symbol_apart hj).1, munch_symbolEq cs h]
  simp [Munch.token, hk]

/-! ## Words and numbers -/

/-- The character stands in no name and no number, and a keyword in front of it is one. -/
def endsWord (c : Char) : Bool := c.val < 0x80 && !Text.isNameChar c && !Text.isDigit c

/-- A word or a number in front of the text would end there. -/
def Stops (cs : List Char) : Prop := ∀ c ∈ cs.head?, endsWord c

theorem stops_nil : Stops [] := fun _ h => nomatch h

theorem stops_cons {c : Char} (cs : List Char) (h : endsWord c) : Stops (c :: cs) := by
  intro d hd
  obtain rfl : c = d := by simpa using hd
  exact h

theorem span_stop {p : Char → Bool} {cs rest : List Char} (hc : ∀ c ∈ cs, p c)
    (hr : ∀ c ∈ rest.head?, p c = false) :
    (cs ++ rest).takeWhile p = cs ∧ (cs ++ rest).dropWhile p = rest := by
  rw [List.takeWhile_append_of_pos hc, List.dropWhile_append_of_pos hc]
  cases rest with
  | nil => exact ⟨by simp, rfl⟩
  | cons c rest => simp [hr c rfl]

/-- The characters are of this class, and the rest does not begin with one. -/
structure IsRun (p : Char → Bool) (rest cs : List Char) : Prop where
  ne_nil : cs ≠ []
  all : ∀ c ∈ cs, p c
  stops : ∀ c ∈ rest.head?, p c = false

theorem IsRun.span {p : Char → Bool} {c : Char} {cs rest : List Char} (h : IsRun p rest (c :: cs)) :
    (cs ++ rest).takeWhile p = cs ∧ (cs ++ rest).dropWhile p = rest :=
  span_stop (List.forall_mem_cons.1 h.all).2 h.stops

theorem Stops.isNameChar {cs : List Char} (h : Stops cs) :
    ∀ c ∈ cs.head?, Text.isNameChar c = false := by
  intro c hc
  have hc := h c hc
  simp only [endsWord, Bool.and_eq_true, Bool.not_eq_true'] at hc
  exact hc.1.2

theorem Stops.isDigit {cs : List Char} (h : Stops cs) : ∀ c ∈ cs.head?, Text.isDigit c = false := by
  intro c hc
  have hc := h c hc
  simp only [endsWord, Bool.and_eq_true, Bool.not_eq_true'] at hc
  exact hc.2

theorem Stops.keywordEnds {cs : List Char} (h : Stops cs) : keywordEnds cs = true := by
  cases cs with
  | nil => rfl
  | cons c cs =>
    have hc := h c rfl
    simp only [endsWord, Bool.and_eq_true] at hc
    simp [MonkeyLang.keywordEnds, hc.1.1]

theorem isDigit_iff {c : Char} : Text.isDigit c = true ↔ 48 ≤ c.toNat ∧ c.toNat ≤ 57 := by
  simp only [Text.isDigit, Char.isDigit, ge_iff_le, UInt32.le_iff_toNat_le, Char.toNat_val,
    Bool.and_eq_true, decide_eq_true_eq]
  exact Iff.rfl

theorem le_of_isAlpha {c : Char} (h : c.isAlpha) : 65 ≤ c.toNat := by
  have h : (decide (c.val ≥ 'A'.val ∧ c.val ≤ 'Z'.val) ||
      (decide (c.val ≥ 'a'.val) && decide (c.val ≤ 'z'.val))) = true := h
  simp only [ge_iff_le, UInt32.le_iff_toNat_le, Char.toNat_val, Bool.or_eq_true, Bool.and_eq_true,
    decide_eq_true_eq] at h
  obtain ⟨h, -⟩ | ⟨h, -⟩ := h
  · exact h
  · exact Nat.le_trans (by decide) h

/-- No letter is a digit. -/
theorem isDigit_of_isNameChar {c : Char} (h : Text.isNameChar c) : Text.isDigit c = false := by
  rw [Bool.eq_false_iff]
  intro hd
  obtain ⟨hl, hu⟩ := isDigit_iff.1 hd
  simp only [Text.isNameChar, Bool.or_eq_true, decide_eq_true_eq] at h
  obtain rfl | h := h
  · exact absurd hu (by decide)
  · have hv : c.val < 0x80 := by
      rw [UInt32.lt_iff_toNat_lt]
      exact Nat.lt_of_le_of_lt hu (by decide)
    rw [Text.isLetter, if_pos hv] at h
    have h := le_of_isAlpha h
    omega

/-- A character begins a token if it is in a class without the number sign and the separators. -/
theorem beginsToken_of {p : Char → Bool} {c : Char} (h : p c)
    (hp : ['#', ' ', '\t', '\n', '\r', '\x0c'].all (! p ·)) : beginsToken c := by
  have hne : ∀ d ∈ ['#', ' ', '\t', '\n', '\r', '\x0c'], c ≠ d := by
    rintro d hd rfl
    have hn := List.all_eq_true.1 hp _ hd
    rw [h] at hn
    cases hn
  simp only [List.forall_mem_cons] at hne
  simp [beginsToken, Text.isSeparator, hne]

theorem beginsToken_of_isDigit {c : Char} (h : Text.isDigit c) : beginsToken c :=
  beginsToken_of h (by decide)

theorem beginsToken_of_isNameChar {c : Char} (h : Text.isNameChar c) : beginsToken c :=
  beginsToken_of h (by decide)

theorem Kind.ofWord_ne_string (w : String) : Kind.ofWord w ≠ .string :=
  ofWord_ne w (by decide) (by decide)

theorem munch_word {c : Char} {cs rest : List Char} (h : IsRun Text.isNameChar rest (c :: cs)) :
    munch c (cs ++ rest) =
      ⟨if keywordEnds rest then .ofWord (String.ofList (c :: cs)) else .ident, c :: cs, rest⟩ := by
  have hc := h.all c List.mem_cons_self
  have hq : c ≠ '"' := by
    rintro rfl
    revert hc
    decide
  simp only [munch, hq, isDigit_of_isNameChar hc, hc, h.span, if_true, if_false,
    Bool.false_eq_true]

/-- A word is one token, a keyword or a name. -/
theorem lex_word {w : String} {rest : List Char} (hw : w.toList.all Text.isNameChar)
    (hne : w ≠ "") (hr : Stops rest) :
    lex (w.toList ++ rest) = ⟨.ofWord w, w⟩ :: lex rest := by
  obtain ⟨cs, rfl⟩ : ∃ cs, w = String.ofList cs := ⟨w.toList, by simp⟩
  rw [String.toList_ofList] at hw ⊢
  rw [List.all_eq_true] at hw
  cases cs with
  | nil => exact absurd rfl hne
  | cons c cs =>
    have hm := munch_word ⟨List.cons_ne_nil c cs, hw, hr.isNameChar⟩
    rw [if_pos hr.keywordEnds] at hm
    rw [List.cons_append, lex_cons _ (beginsToken_of_isNameChar (hw c List.mem_cons_self)), hm]
    simp [Munch.token, Kind.ofWord_ne_string]

theorem munch_number {c : Char} {cs rest : List Char} (h : IsRun Text.isDigit rest (c :: cs)) :
    munch c (cs ++ rest) = ⟨.int, c :: cs, rest⟩ := by
  have hc := h.all c List.mem_cons_self
  have hq : c ≠ '"' := by
    rintro rfl
    revert hc
    decide
  simp only [munch, hq, hc, h.span, if_true, if_false]

/-- A number is one token. -/
theorem lex_number {cs rest : List Char} (hc : ∀ c ∈ cs, Text.isDigit c) (hne : cs ≠ [])
    (hr : Stops rest) : lex (cs ++ rest) = ⟨.int, String.ofList cs⟩ :: lex rest := by
  cases cs with
  | nil => exact absurd rfl hne
  | cons c cs =>
    rw [List.cons_append, lex_cons _ (beginsToken_of_isDigit (hc c List.mem_cons_self)),
      munch_number ⟨hne, hc, hr.isDigit⟩]
    simp [Munch.token]

/-! ## Strings -/

theorem forall_ne_quote {cs : List Char} (h : '"' ∉ cs) : ∀ c ∈ cs, decide (c ≠ '"') = true := by
  intro c hc
  simp only [decide_eq_true_eq]
  exact fun he => h (he ▸ hc)

theorem munch_quoted {cs : List Char} (h : '"' ∉ cs) (rest : List Char) :
    munch '"' (cs ++ '"' :: rest) = ⟨.string, '"' :: cs ++ ['"'], rest⟩ := by
  have hs : ∀ c ∈ ('"' :: rest).head?, decide (c ≠ '"') = false := by simp
  obtain ⟨ht, hd⟩ := span_stop (forall_ne_quote h) hs
  simp only [munch, if_true, ht, hd]

/-- The text of a string is without its quotes. -/
theorem token_quoted {cs rest : List Char} (h : '"' ∉ cs) :
    (⟨.string, '"' :: cs ++ ['"'], rest⟩ : Munch).token = ⟨.string, String.ofList cs⟩ := by
  have hf : ('"' :: cs ++ ['"']).filter (· ≠ '"') = cs := by
    rw [List.filter_append, List.filter_cons_of_neg (by simp),
      List.filter_eq_self.2 (forall_ne_quote h)]
    simp
  rw [Munch.token, if_pos rfl, hf]

/-- A string without an end takes the whole text. -/
theorem munch_unclosed {cs : List Char} (h : '"' ∉ cs) :
    munch '"' cs = ⟨.string, '"' :: cs, []⟩ := by
  obtain ⟨ht, hd⟩ := span_stop (forall_ne_quote h) (fun c (hc : c ∈ [].head?) => nomatch hc)
  rw [List.append_nil] at ht hd
  simp only [munch, if_true, ht, hd]

/-- A text in quotes is one token. -/
theorem lex_quoted {cs rest : List Char} (hc : '"' ∉ cs) :
    lex ('"' :: cs ++ '"' :: rest) = ⟨.string, String.ofList cs⟩ :: lex rest := by
  rw [List.cons_append, lex_cons _ (by decide), munch_quoted hc, token_quoted hc]

/-! ## The texts of tokens -/

/-- A run of letters and underscores that is no keyword. -/
def IsName (x : String) : Prop :=
  x ≠ "" ∧ x.toList.all Text.isNameChar ∧ x ∉ Kind.keywords.map (·.1)

instance (x : String) : Decidable (IsName x) := inferInstanceAs (Decidable (_ ∧ _ ∧ _))

/-- A token of a text was taken off in front of some of the text, and the tokens after it are
tokens of the text as well. -/
theorem exists_munch_of_mem_lex {t : Token} {cs : List Char} (h : t ∈ lex cs) :
    ∃ c ds, t = (munch c ds).token ∧ ∀ u ∈ lex (munch c ds).rest, u ∈ lex cs := by
  generalize hn : cs.length = n
  induction n using Nat.strongRecOn generalizing cs with
  | ind n ih =>
    rw [lex_eq] at h
    cases hs : (splitGap false cs).2 with
    | nil => simp [hs] at h
    | cons c ds =>
      have hl : lex cs = (munch c ds).token :: lex (munch c ds).rest := by rw [lex_eq, hs]
      simp only [hs] at h
      obtain rfl | h := List.mem_cons.1 h
      · exact ⟨c, ds, rfl, fun u hu => hl ▸ List.mem_cons_of_mem _ hu⟩
      · have hg := congrArg List.length (splitGap_append false cs)
        have hm := congrArg List.length (munch_append c ds)
        have hpos := List.length_pos_iff.2 (munch_chars_ne_nil c ds)
        simp only [hs, List.length_append, List.length_cons] at hg hm
        obtain ⟨c', ds', ht, hu⟩ := ih _ (by omega) h rfl
        exact ⟨c', ds', ht, fun u h => hl ▸ List.mem_cons_of_mem _ (hu u h)⟩

/-- No string holds a quote. -/
theorem not_mem_text_of_string {t : Token} {cs : List Char} (h : t ∈ lex cs)
    (hk : t.kind = .string) : '"' ∉ t.text.toList := by
  obtain ⟨c, ds, rfl, -⟩ := exists_munch_of_mem_lex h
  have hk : (munch c ds).kind = .string := hk
  simp [Munch.token, hk]

theorem ascii_of_symbol {c : Char} {k : Kind} (h : Kind.ofSymbol? c = some k) : c.val < 0x80 := by
  unfold Kind.ofSymbol? at h
  split at h <;> first | decide | cases h

theorem ascii_of_symbolEq {c : Char} {k : Kind} (h : Kind.ofSymbolEq? c = some k) :
    c.val < 0x80 := by
  unfold Kind.ofSymbolEq? at h
  split at h <;> first | decide | cases h

theorem ascii_of_isDigit {c : Char} (h : Text.isDigit c) : c.val < 0x80 := by
  rw [UInt32.lt_iff_toNat_lt]
  exact Nat.lt_of_le_of_lt (isDigit_iff.1 h).2 (by decide)

theorem beginsToken_of_not_ascii {c : Char} (h : ¬c.val < 0x80) : beginsToken c :=
  beginsToken_of (p := fun c => !decide (c.val < 0x80)) (by simpa using h) (by decide)

/-- A character beyond ASCII that is no letter begins no token. -/
theorem lex_illegal {c : Char} (cs : List Char) (hv : ¬c.val < 0x80)
    (hn : Text.isNameChar c = false) : ∃ t ∈ lex (c :: cs), t.kind = .illegal := by
  have hq : c ≠ '"' := by
    rintro rfl
    exact hv (by decide)
  have hd : Text.isDigit c = false := Bool.eq_false_iff.2 fun h => hv (ascii_of_isDigit h)
  have hs : Kind.ofSymbol? c = none :=
    Option.eq_none_iff_forall_ne_some.2 fun k h => hv (ascii_of_symbol h)
  have he : Kind.ofSymbolEq? c = none :=
    Option.eq_none_iff_forall_ne_some.2 fun k h => hv (ascii_of_symbolEq h)
  have hm : (munch c cs).kind = .illegal := by
    simp only [munch, hq, hd, hn, hs, he, if_false, Bool.false_eq_true]
    rfl
  refine ⟨(munch c cs).token, ?_, hm⟩
  rw [lex_cons cs (beginsToken_of_not_ascii hv)]
  exact List.mem_cons_self

/-- A name is a word; it spells no keyword unless what follows leaves that open. -/
theorem munch_ident {c : Char} {cs : List Char} (h : (munch c cs).kind = .ident) :
    Text.isNameChar c ∧
      munch c cs = ⟨.ident, c :: cs.takeWhile Text.isNameChar, cs.dropWhile Text.isNameChar⟩ ∧
      (keywordEnds (cs.dropWhile Text.isNameChar) →
        Kind.ofWord (String.ofList (c :: cs.takeWhile Text.isNameChar)) = .ident) := by
  unfold munch at h ⊢
  split at h
  · split at h <;> cases h
  · next hq =>
    split at h
    · cases h
    · next hd =>
      split at h
      · next hn =>
        simp only at h
        simp only [hn, hq, hd, if_true, if_false, h]
        exact ⟨trivial, rfl, fun he => by rwa [if_pos he] at h⟩
      · split at h
        · next hs => exact absurd h (Kind.symbolEq_ne hs (by decide))
        · cases hs : Kind.ofSymbol? c with
          | none => simp [hs] at h
          | some k =>
            rw [hs] at h
            exact absurd h (Kind.symbol_ne hs (by decide))

/-- Where no character is out of place, the names are words that are no keywords. -/
theorem isName_of_ident {t : Token} {cs : List Char} (h : t ∈ lex cs) (hk : t.kind = .ident)
    (hi : ∀ u ∈ lex cs, u.kind ≠ .illegal) : IsName t.text := by
  obtain ⟨c, ds, rfl, hu⟩ := exists_munch_of_mem_lex h
  obtain ⟨hc, hm, hw⟩ := munch_ident hk
  rw [hm] at hu ⊢
  have hends : keywordEnds (ds.dropWhile Text.isNameChar) := by
    have hhead := List.head?_dropWhile_not Text.isNameChar ds
    cases hr : ds.dropWhile Text.isNameChar with
    | nil => rfl
    | cons d rest =>
      rw [hr] at hhead
      by_cases hv : d.val < 0x80
      · simp [keywordEnds, hv]
      · obtain ⟨t, ht, hk⟩ := lex_illegal rest hv hhead
        exact absurd hk (hi t (hu t (by rw [hr]; exact ht)))
  have hall : (c :: ds.takeWhile Text.isNameChar).all Text.isNameChar = true := by
    rw [List.all_cons, hc, List.all_takeWhile]
    rfl
  obtain ⟨-, hnot⟩ | hmem := Kind.ofWord_cases (String.ofList (c :: ds.takeWhile Text.isNameChar))
  · exact ⟨by simp [Munch.token], by simpa [Munch.token] using hall, hnot⟩
  · rw [hw hends] at hmem
    have hne : ∀ p ∈ Kind.keywords, p.2 ≠ .ident := by decide
    exact absurd rfl (hne _ hmem)

end MonkeyLang
