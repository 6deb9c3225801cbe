/-
How the tokens of a source lie in it. `IsGap` and `IsToken` say what may stand
between tokens and what a token is, in front of a given rest and without regard
to how either is read. A source is tiled by gaps and tokens in one way only, and
the lexemes with their places are those of the tiling.
-/
import MonkeyLang.Proofs.Lexing

namespace MonkeyLang

/-! ## Gaps -/

/-- The characters are white space and comments, in front of the rest. A comment ends before the
next line feed or with the text. -/
inductive IsGap (rest : List Char) : List Char → Prop
  | nil : IsGap rest []
  | separator {c : Char} {gap : List Char} : Text.isSeparator c → IsGap rest gap →
      IsGap rest (c :: gap)
  | comment {text gap : List Char} : '\n' ∉ text → (∀ c ∈ (gap ++ rest).head?, c = '\n') →
      IsGap rest gap → IsGap rest ('#' :: text ++ gap)

/-- Where a token begins or the text ends. -/
def GapEnds (rest : List Char) : Prop := ∀ c ∈ rest.head?, beginsToken c

section

variable {c : Char} {cs ds gap text rest : List Char}

theorem splitGap_comment (ht : '\n' ∉ text) (hd : ∀ c ∈ ds.head?, c = '\n') :
    splitGap true (text ++ ds) = (text ++ (splitGap false ds).1, (splitGap false ds).2) := by
  induction text with
  | nil =>
    cases ds with
    | nil => rfl
    | cons d ds =>
      obtain rfl := hd d rfl
      simp [splitGap, Text.isSeparator]
  | cons c text ih =>
    obtain ⟨hc, ht⟩ := not_or.1 (mt List.mem_cons.2 ht)
    simp [splitGap, Ne.symm hc, ih ht]

theorem splitGap_ends (h : GapEnds rest) : splitGap false rest = ([], rest) := by
  cases rest with
  | nil => rfl
  | cons c rest =>
    have hc : beginsToken c := h c rfl
    simp only [beginsToken, Bool.not_eq_true'] at hc
    simp [splitGap, hc]

/-- A gap in front of a token is split off. -/
theorem splitGap_of_isGap (hg : IsGap rest gap) (hr : GapEnds rest) :
    splitGap false (gap ++ rest) = (gap, rest) := by
  induction hg with
  | nil => exact splitGap_ends hr
  | @separator c gap hc _ ih =>
    have hne : c ≠ '#' := by
      rintro rfl
      revert hc
      decide
    simp [splitGap, hc, hne, ih]
  | @comment text gap ht hend _ ih =>
    have hs := splitGap_comment ht hend
    simp only [List.cons_append, List.append_assoc, splitGap, Bool.false_eq_true, if_false,
      decide_true, Bool.true_or, if_true, hs, ih]

theorem gapEnds_splitGap (inComment : Bool) (cs : List Char) :
    GapEnds (splitGap inComment cs).2 := by
  induction cs generalizing inComment with
  | nil => exact fun _ h => nomatch h
  | cons c cs ih =>
    simp only [splitGap]
    split
    · exact ih _
    · split
      · exact ih _
      · rename_i hc
        intro d hd
        obtain rfl : c = d := by simpa using hd
        simpa [beginsToken] using hc

/-- A comment goes on with any character but the line feed. -/
theorem IsGap.comment_cons (hc : c ≠ '\n') (h : IsGap rest ('#' :: gap)) :
    IsGap rest ('#' :: c :: gap) := by
  cases h with
  | separator hs => exact absurd hs (by decide)
  | @comment text gap ht hend hg =>
    have ht : '\n' ∉ c :: text := List.not_mem_cons_of_ne_of_not_mem (Ne.symm hc) ht
    exact .comment ht hend hg

/-- What is split off is a gap; within a comment, it is one after the number sign. -/
theorem isGap_splitGap (cs : List Char) :
    IsGap (splitGap false cs).2 (splitGap false cs).1 ∧
      IsGap (splitGap true cs).2 ('#' :: (splitGap true cs).1) := by
  induction cs with
  | nil => exact ⟨.nil, .comment List.not_mem_nil (fun _ h => nomatch h) .nil⟩
  | cons c cs ih =>
    obtain ⟨hgap, hcomment⟩ := ih
    constructor
    · by_cases hc : c = '#'
      · subst hc
        simpa [splitGap] using hcomment
      · by_cases hs : Text.isSeparator c
        · simpa [splitGap, hc, hs] using hgap.separator hs
        · simpa [splitGap, hc, hs] using IsGap.nil
    · by_cases hc : c = '\n'
      · subst hc
        have hline : IsGap (splitGap false cs).2 ('\n' :: (splitGap false cs).1) :=
          hgap.separator (by decide)
        simpa [splitGap] using IsGap.comment List.not_mem_nil (by simp) hline
      · simpa [splitGap, hc] using hcomment.comment_cons hc

end

/-! ## Where a keyword ends -/

/-- There is a letter with the same leading byte in UTF-8. -/
def LooksLikeLetter (c : Char) : Prop :=
  ∃ d, Text.isLetter d ∧ (String.utf8EncodeChar d).head? = (String.utf8EncodeChar c).head?

/-- A character beyond ASCII comes that looks like a letter. -/
def Misleads (rest : List Char) : Prop := ∃ c ∈ rest.head?, 0x80 ≤ c.toNat ∧ LooksLikeLetter c

/-- The leading byte of a code point. -/
def leadByte (n : Nat) : Nat :=
  if n ≤ 0x7f then n else if n ≤ 0x7ff then n / 64 % 0x20 + 0xc0
  else if n ≤ 0xffff then n / 4096 % 0x10 + 0xe0 else n / 262144 % 0x08 + 0xf0

/-- The first code point beyond ASCII with this leading byte. -/
def firstPoint (b : Nat) : Nat :=
  if b < 0xe0 then (b - 0xc0) * 64 else if b < 0xf0 then max 0x800 ((b - 0xe0) * 4096)
  else max 0x10000 ((b - 0xf0) * 262144)

/-- The leading bytes beyond ASCII that begin no letter. -/
def foreignBytes : List Nat := [0xcc, 0xee, 0xf1, 0xf2, 0xf3, 0xf4]

section

variable {c d : Char}

theorem head_utf8EncodeChar (c : Char) :
    (String.utf8EncodeChar c).head? = some (.ofNat (leadByte c.toNat)) := by
  have htoNat : c.val.toNat = c.toNat := rfl
  simp only [String.utf8EncodeChar, leadByte, htoNat]
  split
  · rfl
  · split
    · rfl
    · split <;> rfl

theorem leadByte_lt (n : Nat) : leadByte n < 256 := by
  unfold leadByte
  split
  · omega
  · split
    · omega
    · split <;> omega

theorem head_utf8EncodeChar_eq_iff :
    (String.utf8EncodeChar d).head? = (String.utf8EncodeChar c).head? ↔
      leadByte d.toNat = leadByte c.toNat := by
  rw [head_utf8EncodeChar, head_utf8EncodeChar, Option.some_inj]
  constructor
  · intro h
    have h := congrArg UInt8.toNat h
    rwa [UInt8.toNat_ofNat', UInt8.toNat_ofNat', Nat.mod_eq_of_lt (leadByte_lt _),
      Nat.mod_eq_of_lt (leadByte_lt _)] at h
  · intro h
    rw [h]

theorem toNat_lt (c : Char) : c.toNat < 0x110000 := by
  have hvalid : c.toNat.isValidChar := c.valid
  rcases hvalid with h | h <;> omega

theorem foreignLeads_iff : foreignLeads.has c ↔ leadByte c.toNat ∈ foreignBytes := by
  have hlt := toNat_lt c
  simp only [foreignLeads, foreignBytes, Text.Ranges.has_iff, List.mem_cons, List.not_mem_nil,
    or_false, exists_eq_or_imp, exists_eq_left, leadByte]
  split
  · omega
  · split
    · omega
    · split <;> omega

theorem letterRanges_apart :
    ∀ r ∈ Text.letterRanges, ∀ s ∈ foreignLeads, r.2 < s.1 ∨ s.2 < r.1 := by
  decide +kernel

theorem leadByte_of_isLetter (h : Text.isLetter d) : leadByte d.toNat ∉ foreignBytes := by
  unfold Text.isLetter at h
  split at h
  · rename_i hlt
    have hlt : d.toNat < 0x80 := UInt32.lt_iff_toNat_lt.1 hlt
    have hle : leadByte d.toNat < 0x80 := by
      unfold leadByte
      split <;> omega
    have hforeign : ∀ b ∈ foreignBytes, 0x80 ≤ b := by decide
    exact fun hb => absurd hle (Nat.not_lt.2 (hforeign _ hb))
  · rw [← foreignLeads_iff]
    intro hf
    obtain ⟨r, hr, hrd⟩ := Text.Ranges.has_iff.1 h
    obtain ⟨s, hs, hsd⟩ := Text.Ranges.has_iff.1 hf
    have := letterRanges_apart r hr s hs
    omega

theorem exists_letter_of_byte : ∀ b ∈ List.range' 0xc2 0x33, b ∈ foreignBytes ∨
    ∃ r ∈ Text.letterRanges, max r.1 (firstPoint b) ≤ r.2 ∧ 0x80 ≤ max r.1 (firstPoint b) ∧
      (max r.1 (firstPoint b)).isValidChar ∧ leadByte (max r.1 (firstPoint b)) = b := by
  decide +kernel

/-- Every other leading byte begins a letter. -/
theorem looksLikeLetter_of_not_mem (hc : 0x80 ≤ c.toNat) (h : leadByte c.toNat ∉ foreignBytes) :
    LooksLikeLetter c := by
  have hrange : leadByte c.toNat ∈ List.range' 0xc2 0x33 := by
    have hlt := toNat_lt c
    rw [List.mem_range'_1, leadByte]
    split
    · omega
    · split
      · omega
      · split <;> omega
  obtain hf | ⟨r, hr, hle, hbeyond, hvalid, hbyte⟩ := exists_letter_of_byte _ hrange
  · exact absurd hf h
  · have hmin : r.1 ≤ max r.1 (firstPoint (leadByte c.toNat)) := Nat.le_max_left ..
    generalize max r.1 (firstPoint (leadByte c.toNat)) = n at hle hmin hbeyond hvalid hbyte
    obtain ⟨d, rfl⟩ : ∃ d : Char, d.toNat = n := ⟨.ofNatAux n hvalid, rfl⟩
    have hletter : Text.isLetter d := by
      have hascii : ¬d.val < 0x80 := mt UInt32.lt_iff_toNat_lt.1 (Nat.not_lt.2 hbeyond)
      rw [Text.isLetter, if_neg hascii, Text.Ranges.has_iff]
      exact ⟨r, hr, hmin, hle⟩
    exact ⟨d, hletter, head_utf8EncodeChar_eq_iff.2 hbyte⟩

/-- A keyword is one unless what follows looks like a letter. -/
theorem keywordEnds_eq_false_iff (rest : List Char) : keywordEnds rest = false ↔ Misleads rest := by
  cases rest with
  | nil => simp [keywordEnds, Misleads]
  | cons c cs =>
    have hmis : Misleads (c :: cs) ↔ 0x80 ≤ c.toNat ∧ LooksLikeLetter c := by simp [Misleads]
    have hval : (c.val < 0x80) ↔ c.toNat < 0x80 := UInt32.lt_iff_toNat_lt
    rw [hmis]
    simp only [keywordEnds, Bool.or_eq_false_iff, decide_eq_false_iff_not, hval, Nat.not_lt]
    refine and_congr_right fun hc => ?_
    rw [← Bool.not_eq_true, foreignLeads_iff]
    constructor
    · exact looksLikeLetter_of_not_mem hc
    · rintro ⟨d, hd, hbyte⟩
      rw [← head_utf8EncodeChar_eq_iff.1 hbyte]
      exact leadByte_of_isLetter hd

end

/-! ## Tokens -/

/-- The characters are this token, in front of the rest. -/
inductive IsToken (rest : List Char) : List Char → Token → Prop
  | closed {cs : List Char} : '"' ∉ cs → IsToken rest ('"' :: cs ++ ['"']) ⟨.string, .ofList cs⟩
  /-- A string may end with the text. -/
  | unclosed {cs : List Char} : '"' ∉ cs → rest = [] →
      IsToken rest ('"' :: cs) ⟨.string, .ofList cs⟩
  | number {cs : List Char} : IsRun Text.isDigit rest cs → IsToken rest cs ⟨.int, .ofList cs⟩
  | keyword {cs : List Char} {k : Kind} : IsRun Text.isNameChar rest cs →
      (String.ofList cs, k) ∈ Kind.keywords → ¬Misleads rest → IsToken rest cs ⟨k, .ofList cs⟩
  /-- A word that spells a keyword is a name too in front of what looks like a letter. -/
  | name {cs : List Char} : IsRun Text.isNameChar rest cs →
      String.ofList cs ∉ Kind.keywords.map (·.1) ∨ Misleads rest →
      IsToken rest cs ⟨.ident, .ofList cs⟩
  | symbolEq {c : Char} {k : Kind} : Kind.ofSymbolEq? c = some k →
      IsToken rest [c, '='] ⟨k, .ofList [c, '=']⟩
  | symbol {c : Char} {k : Kind} : Kind.ofSymbol? c = some k →
      Kind.ofSymbolEq? c = none ∨ ¬GoesOnEqual rest → IsToken rest [c] ⟨k, .ofList [c]⟩
  /-- A character that begins no other token stands alone. -/
  | illegal {c : Char} : beginsToken c → c ≠ '"' → Text.isDigit c = false →
      Text.isNameChar c = false → Kind.ofSymbol? c = none → IsToken rest [c] ⟨.illegal, .ofList [c]⟩

section

variable {p : Char → Bool} {c : Char} {chars rest cs : List Char} {t : Token} {k : Kind}

theorem isRun_span (hc : p c) (cs : List Char) :
    IsRun p (cs.dropWhile p) (c :: cs.takeWhile p) := by
  refine ⟨List.cons_ne_nil _ _, List.forall_mem_cons.2 ⟨hc, fun d hd => ?_⟩, fun d hd => ?_⟩
  · exact List.all_eq_true.1 List.all_takeWhile d hd
  · have hhead := List.head?_dropWhile_not p cs
    rw [Option.mem_def.1 hd] at hhead
    exact hhead

theorem Kind.ofWord_of_mem : ∀ p ∈ keywords, ofWord p.1 = p.2 := by decide

theorem token_of_ne (h : k ≠ .string) : (⟨k, chars, rest⟩ : Munch).token = ⟨k, .ofList chars⟩ := by
  rw [Munch.token, if_neg h]

theorem munch_illegal (hq : c ≠ '"') (hd : Text.isDigit c = false)
    (hn : Text.isNameChar c = false) (hs : Kind.ofSymbol? c = none) (cs : List Char) :
    munch c cs = ⟨.illegal, [c], cs⟩ := by
  have he : Kind.ofSymbolEq? c = none := by
    refine Option.eq_none_iff_forall_ne_some.2 fun k hk => ?_
    obtain ⟨j, hj⟩ := exists_symbol_of_symbolEq hk
    rw [hs] at hj
    cases hj
  simp only [munch, hq, hd, hn, hs, he, if_false, Bool.false_eq_true]
  rfl

/-- What is a token in front of a rest is the token that is read there. -/
theorem munch_of_isToken (h : IsToken rest chars t) :
    ∃ c cs, chars ++ rest = c :: cs ∧ beginsToken c ∧ munch c cs = ⟨t.kind, chars, rest⟩ ∧
      (munch c cs).token = t := by
  cases h with
  | @closed cs hq =>
    have hm := munch_quoted hq rest
    refine ⟨'"', cs ++ '"' :: rest, by simp, by decide, hm, ?_⟩
    rw [hm, token_quoted hq]
  | @unclosed cs hq hr =>
    subst hr
    have hm := munch_unclosed hq
    refine ⟨'"', cs, by simp, by decide, hm, ?_⟩
    have hf : ('"' :: cs).filter (· ≠ '"') = cs := by
      rw [List.filter_cons_of_neg (by simp), List.filter_eq_self.2 (forall_ne_quote hq)]
    rw [hm, Munch.token, if_pos rfl, hf]
  | number h =>
    obtain ⟨c, cs, rfl⟩ := List.exists_cons_of_ne_nil h.ne_nil
    have hm := munch_number h
    have hb := beginsToken_of_isDigit (h.all c List.mem_cons_self)
    exact ⟨c, cs ++ rest, rfl, hb, hm, by rw [hm]; exact token_of_ne (by decide)⟩
  | @keyword _ k h hk he =>
    obtain ⟨c, cs, rfl⟩ := List.exists_cons_of_ne_nil h.ne_nil
    have hm := munch_word h
    rw [← keywordEnds_eq_false_iff, Bool.not_eq_false] at he
    rw [if_pos he, Kind.ofWord_of_mem _ hk] at hm
    have hb := beginsToken_of_isNameChar (h.all c List.mem_cons_self)
    have hne : ∀ p ∈ Kind.keywords, p.2 ≠ .string := by decide
    exact ⟨c, cs ++ rest, rfl, hb, hm, by rw [hm, token_of_ne (hne _ hk)]⟩
  | name h hk =>
    obtain ⟨c, cs, rfl⟩ := List.exists_cons_of_ne_nil h.ne_nil
    have hident : (if keywordEnds rest then Kind.ofWord (String.ofList (c :: cs)) else .ident) =
        .ident := by
      split
      · rename_i he
        obtain ⟨h, -⟩ | h := Kind.ofWord_cases (String.ofList (c :: cs))
        · exact h
        · have hmem : String.ofList (c :: cs) ∈ Kind.keywords.map (·.1) := List.mem_map_of_mem h
          rw [← keywordEnds_eq_false_iff, he] at hk
          exact absurd hmem (hk.resolve_right (by decide))
      · rfl
    have hm := munch_word h
    rw [hident] at hm
    have hb := beginsToken_of_isNameChar (h.all c List.mem_cons_self)
    exact ⟨c, cs ++ rest, rfl, hb, hm, by rw [hm]; exact token_of_ne (by decide)⟩
  | @symbolEq c k hk =>
    obtain ⟨j, hj⟩ := exists_symbol_of_symbolEq hk
    have hm := munch_symbolEq rest hk
    have hne : k ≠ .string := Kind.symbolEq_ne hk (by decide)
    exact ⟨c, '=' :: rest, rfl, (symbol_apart hj).1, hm, by rw [hm, token_of_ne hne]⟩
  | @symbol c k hk he =>
    have hm := munch_symbol hk he
    have hne : k ≠ .string := Kind.symbol_ne hk (by decide)
    exact ⟨c, rest, rfl, (symbol_apart hk).1, hm, by rw [hm, token_of_ne hne]⟩
  | @illegal c hb hq hd hn hs =>
    have hm := munch_illegal hq hd hn hs rest
    exact ⟨c, rest, rfl, hb, hm, by rw [hm]; exact token_of_ne (by decide)⟩

theorem isToken_munch_quote (cs : List Char) :
    IsToken (munch '"' cs).rest (munch '"' cs).chars (munch '"' cs).token := by
  by_cases hq : '"' ∈ cs
  · obtain ⟨as, bs, rfl, has⟩ := List.eq_append_cons_of_mem hq
    rw [munch_quoted has, token_quoted has]
    exact .closed has
  · obtain ⟨c, ds, he, -, hm, ht⟩ := munch_of_isToken (.unclosed hq rfl)
    rw [List.append_nil] at he
    obtain ⟨rfl, rfl⟩ := List.cons.inj he
    rw [ht, hm]
    exact .unclosed hq rfl

theorem munch_digits (hd : Text.isDigit c) (cs : List Char) :
    munch c cs = ⟨.int, c :: cs.takeWhile Text.isDigit, cs.dropWhile Text.isDigit⟩ := by
  have hm := munch_number (isRun_span hd cs)
  rwa [List.takeWhile_append_dropWhile] at hm

theorem munch_letters (hn : Text.isNameChar c) (cs : List Char) :
    munch c cs = ⟨if keywordEnds (cs.dropWhile Text.isNameChar) then
        .ofWord (String.ofList (c :: cs.takeWhile Text.isNameChar)) else .ident,
      c :: cs.takeWhile Text.isNameChar, cs.dropWhile Text.isNameChar⟩ := by
  have hm := munch_word (isRun_span hn cs)
  rwa [List.takeWhile_append_dropWhile] at hm

theorem isToken_munch_word (hn : Text.isNameChar c) (cs : List Char) :
    IsToken (munch c cs).rest (munch c cs).chars (munch c cs).token := by
  have hrun := isRun_span hn cs
  rw [munch_letters hn]
  by_cases he : keywordEnds (cs.dropWhile Text.isNameChar)
  · rw [if_pos he, token_of_ne (Kind.ofWord_ne_string _)]
    obtain ⟨hk, hnot⟩ | hk := Kind.ofWord_cases (String.ofList (c :: cs.takeWhile Text.isNameChar))
    · rw [hk]
      exact .name hrun (.inl hnot)
    · refine .keyword hrun hk ?_
      rw [← keywordEnds_eq_false_iff, he]
      nofun
  · rw [if_neg he]
    exact .name hrun (.inr ((keywordEnds_eq_false_iff _).1 (Bool.eq_false_iff.2 he)))

/-- Wherever a token begins, one is read. -/
theorem isToken_munch (hb : beginsToken c) (cs : List Char) :
    IsToken (munch c cs).rest (munch c cs).chars (munch c cs).token := by
  by_cases hq : c = '"'
  · subst hq
    exact isToken_munch_quote cs
  · by_cases hd : Text.isDigit c
    · rw [munch_digits hd]
      exact .number (isRun_span hd cs)
    · by_cases hn : Text.isNameChar c
      · exact isToken_munch_word hn cs
      · cases hs : Kind.ofSymbol? c with
        | none =>
          rw [Bool.not_eq_true] at hd hn
          rw [munch_illegal hq hd hn hs]
          exact .illegal hb hq hd hn hs
        | some k =>
          by_cases he : Kind.ofSymbolEq? c = none ∨ ¬GoesOnEqual cs
          · rw [munch_symbol hs he, token_of_ne (Kind.symbol_ne hs (by decide))]
            exact .symbol hs he
          · obtain ⟨hne, hgo⟩ := not_or.1 he
            obtain ⟨j, hj⟩ := Option.ne_none_iff_exists'.1 hne
            obtain ⟨ds, rfl⟩ := List.head?_eq_some_iff.1 (Classical.not_not.1 hgo)
            rw [munch_symbolEq ds hj, token_of_ne (Kind.symbolEq_ne hj (by decide))]
            exact .symbolEq hj

/-! ## The longest token -/

/-- What is spelled like a token, wherever it stands. -/
inductive Matches : List Char → Prop
  | unclosed {cs : List Char} : '"' ∉ cs → Matches ('"' :: cs)
  | closed {cs : List Char} : '"' ∉ cs → Matches ('"' :: cs ++ ['"'])
  | number {cs : List Char} : cs ≠ [] → (∀ c ∈ cs, Text.isDigit c) → Matches cs
  | word {cs : List Char} : cs ≠ [] → (∀ c ∈ cs, Text.isNameChar c) → Matches cs
  | symbol {c : Char} {k : Kind} : Kind.ofSymbol? c = some k → Matches [c]
  | symbolEq {c : Char} {k : Kind} : Kind.ofSymbolEq? c = some k → Matches [c, '=']

/-- The characters are the longest match in front of the text; if there is none, they are one
character. -/
structure IsLongest (text chars : List Char) : Prop where
  front : chars <+: text
  longest {cs : List Char} : Matches cs → cs <+: text → cs.length ≤ chars.length
  single : Matches chars ∨ chars.length = 1 ∧ ∀ cs, cs <+: text → ¬Matches cs

theorem takeWhile_length_ge (hc : ∀ c ∈ cs, p c) (more : List Char) :
    cs.length ≤ ((cs ++ more).takeWhile p).length := by
  rw [List.takeWhile_append_of_pos hc, List.length_append]
  exact Nat.le_add_right _ _

/-- No match in front of a text is longer than the token that is read there. -/
theorem Matches.length_le {as more : List Char} (h : Matches as) (ht : as ++ more = c :: cs) :
    as.length ≤ (munch c cs).chars.length := by
  cases h with
  | @unclosed body hq =>
    rw [List.cons_append] at ht
    obtain ⟨rfl, rfl⟩ := List.cons.inj ht
    have hlen := takeWhile_length_ge (forall_ne_quote hq) more
    simp only [munch, if_true]
    split <;> simp only [List.length_cons, List.length_append] <;> omega
  | @closed body hq =>
    rw [List.cons_append, List.cons_append, List.append_assoc] at ht
    obtain ⟨rfl, rfl⟩ := List.cons.inj ht
    have hm := munch_quoted hq more
    exact Nat.le_of_eq (by rw [List.singleton_append, hm])
  | number hne hd =>
    obtain ⟨d, ds, rfl⟩ := List.exists_cons_of_ne_nil hne
    obtain ⟨rfl, rfl⟩ := List.cons.inj ht
    obtain ⟨hd, hds⟩ := List.forall_mem_cons.1 hd
    rw [munch_digits hd]
    exact Nat.succ_le_succ (takeWhile_length_ge hds more)
  | word hne hn =>
    obtain ⟨d, ds, rfl⟩ := List.exists_cons_of_ne_nil hne
    obtain ⟨rfl, rfl⟩ := List.cons.inj ht
    obtain ⟨hn, hns⟩ := List.forall_mem_cons.1 hn
    rw [munch_letters hn]
    exact Nat.succ_le_succ (takeWhile_length_ge hns more)
  | symbol hk => exact List.length_pos_iff.2 (munch_chars_ne_nil c cs)
  | @symbolEq d k hk =>
    rw [List.cons_append, List.singleton_append] at ht
    obtain ⟨rfl, rfl⟩ := List.cons.inj ht
    exact Nat.le_of_eq (by rw [munch_symbolEq more hk])

/-- What a match begins with. -/
theorem Matches.begins (h : Matches cs) : ∃ c ds, cs = c :: ds ∧
    (c = '"' ∨ Text.isDigit c ∨ Text.isNameChar c ∨ (Kind.ofSymbol? c).isSome) := by
  cases h with
  | unclosed => exact ⟨_, _, rfl, .inl rfl⟩
  | closed => exact ⟨_, _, rfl, .inl rfl⟩
  | number hne hd =>
    obtain ⟨d, ds, rfl⟩ := List.exists_cons_of_ne_nil hne
    exact ⟨d, ds, rfl, .inr (.inl (hd d List.mem_cons_self))⟩
  | word hne hn =>
    obtain ⟨d, ds, rfl⟩ := List.exists_cons_of_ne_nil hne
    exact ⟨d, ds, rfl, .inr (.inr (.inl (hn d List.mem_cons_self)))⟩
  | symbol hk => exact ⟨_, _, rfl, .inr (.inr (.inr (by rw [hk]; rfl)))⟩
  | symbolEq hk =>
    obtain ⟨j, hj⟩ := exists_symbol_of_symbolEq hk
    exact ⟨_, _, rfl, .inr (.inr (.inr (by rw [hj]; rfl)))⟩

/-- A token is the longest match, or a single character that begins none. -/
theorem IsToken.isLongest (h : IsToken rest chars t) : IsLongest (chars ++ rest) chars := by
  obtain ⟨c, cs, htext, -, hm, -⟩ := munch_of_isToken h
  refine ⟨List.prefix_append _ _, fun {as} has hp => ?_, ?_⟩
  · obtain ⟨more, hmore⟩ := hp
    have hle := has.length_le (hmore.trans htext)
    rwa [hm] at hle
  · cases h with
    | closed hq => exact .inl (.closed hq)
    | unclosed hq hr => exact .inl (.unclosed hq)
    | number h => exact .inl (.number h.ne_nil h.all)
    | keyword h => exact .inl (.word h.ne_nil h.all)
    | name h => exact .inl (.word h.ne_nil h.all)
    | symbolEq hk => exact .inl (.symbolEq hk)
    | symbol hk => exact .inl (.symbol hk)
    | @illegal c hb hq hd hn hs =>
      refine .inr ⟨rfl, fun as hp has => ?_⟩
      obtain ⟨d, ds, rfl, hbegins⟩ := has.begins
      obtain ⟨rfl, -⟩ := List.cons_prefix_cons.1 hp
      simp [hq, hd, hn, hs] at hbegins

end

/-! ## Tilings -/

/-- From byte `n` on, the text consists of these tokens, with gaps before, between and after
them. -/
inductive Tiles : Nat → List Char → List Lexeme → Prop
  | done {n : Nat} {gap : List Char} : IsGap [] gap → Tiles n gap []
  | token {n : Nat} {gap chars rest : List Char} {t : Token} {ls : List Lexeme} :
      IsGap (chars ++ rest) gap → IsToken rest chars t →
      Tiles (n + byteLength gap + byteLength chars) rest ls →
      Tiles n (gap ++ (chars ++ rest))
        (⟨t, n + byteLength gap, n + byteLength gap + byteLength chars⟩ :: ls)

section

variable {n k : Nat} {cs ds gap chars rest : List Char} {ls : List Lexeme} {t : Token} {c : Cursor}

theorem byteLength_append (cs ds : List Char) :
    byteLength (cs ++ ds) = byteLength cs + byteLength ds := by
  induction cs with
  | nil => exact (Nat.zero_add _).symm
  | cons c cs ih => simp only [List.cons_append, byteLength, List.foldr_cons] at ih ⊢; omega

theorem length_le_byteLength (cs : List Char) : cs.length ≤ byteLength cs := by
  induction cs with
  | nil => exact Nat.le_refl 0
  | cons c cs ih =>
    have hc : 0 < c.utf8Size := c.utf8Size_pos
    simp only [List.length_cons, byteLength, List.foldr_cons] at ih ⊢
    omega

theorem utf8ByteSize_eq (s : String) : s.utf8ByteSize = byteLength s.toList := by
  obtain ⟨cs, rfl⟩ : ∃ cs, s = String.ofList cs := ⟨s.toList, by simp⟩
  rw [String.toList_ofList]
  induction cs with
  | nil => rfl
  | cons c cs ih =>
    have hcons : String.ofList (c :: cs) = String.singleton c ++ String.ofList cs := by
      rw [String.singleton_eq_ofList, ← String.ofList_append]
      rfl
    rw [hcons, String.utf8ByteSize_append, String.utf8ByteSize_singleton, ih]
    rfl

theorem IsToken.gapEnds (h : IsToken rest chars t) : GapEnds (chars ++ rest) := by
  obtain ⟨c, cs, htext, hb, -, -⟩ := munch_of_isToken h
  rw [htext]
  intro d hd
  obtain rfl : c = d := by simpa using hd
  exact hb

theorem IsToken.ne_nil (h : IsToken rest chars t) : chars ≠ [] := by
  obtain ⟨c, cs, -, -, hm, -⟩ := munch_of_isToken h
  have hne := munch_chars_ne_nil c cs
  rwa [hm] at hne

theorem IsToken.kind_ne_eof (h : IsToken rest chars t) : t.kind ≠ .eof := by
  obtain ⟨c, cs, -, -, hm, -⟩ := munch_of_isToken h
  have hne := munch_kind_ne_eof c cs
  rwa [hm] at hne

/-- In front of a token, it is next. -/
theorem next_of_isToken (hg : IsGap (chars ++ rest) gap) (ht : IsToken rest chars t) :
    Cursor.next ⟨gap ++ (chars ++ rest), n⟩ =
      (⟨t, n + byteLength gap, n + byteLength gap + byteLength chars⟩,
        ⟨rest, n + byteLength gap + byteLength chars⟩) := by
  obtain ⟨c, cs, htext, -, hm, hmt⟩ := munch_of_isToken ht
  have hs := splitGap_of_isGap hg ht.gapEnds
  rw [htext] at hs ⊢
  rw [hm] at hmt
  simp only [Cursor.next, hs, hm, hmt]

/-- In front of the end, nothing is next, for ever. -/
theorem next_of_isGap (hg : IsGap [] gap) :
    Cursor.next ⟨gap, n⟩ = (⟨⟨.eof, ""⟩, n + byteLength gap, n + byteLength gap⟩,
      ⟨[], n + byteLength gap⟩) := by
  have hs := splitGap_of_isGap hg fun _ h => nomatch h
  rw [List.append_nil] at hs
  simp only [Cursor.next, hs]

/-- The lexemes of a tiled text are those of the tiling. -/
theorem Tiles.lexemes_eq (h : Tiles n cs ls) (hk : cs.length ≤ k) :
    Cursor.lexemes k ⟨cs, n⟩ = ls := by
  induction h generalizing k with
  | done hg =>
    cases k with
    | zero => rfl
    | succ k => simp only [Cursor.lexemes, next_of_isGap hg, if_true]
  | @token n gap chars rest t ls hg ht _ ih =>
    have hpos : 0 < chars.length := List.length_pos_iff.2 ht.ne_nil
    simp only [List.length_append] at hk
    obtain ⟨k, rfl⟩ : ∃ j, k = j + 1 := ⟨k - 1, by omega⟩
    simp only [Cursor.lexemes, next_of_isToken hg ht, if_neg ht.kind_ne_eof]
    rw [ih (by omega)]

/-- The tokens of a tiled text, wherever it begins. -/
theorem Tiles.lex_eq (h : Tiles n cs ls) : lex cs = ls.map (·.token) := by
  rw [← h.lexemes_eq (Nat.le_refl _)]
  exact (Cursor.tokens_eq_lex (c := ⟨cs, n⟩) (Nat.le_refl _)).symm

/-- Every text is tiled by its lexemes. -/
theorem tiles_lexemes (hk : cs.length ≤ k) : Tiles n cs (Cursor.lexemes k ⟨cs, n⟩) := by
  induction k generalizing n cs with
  | zero =>
    obtain rfl := List.length_eq_zero_iff.1 (Nat.le_zero.1 hk)
    exact .done .nil
  | succ k ih =>
    have hg := (isGap_splitGap cs).1
    have hb := gapEnds_splitGap false cs
    have hsplit := splitGap_append false cs
    generalize (splitGap false cs).1 = gap at hg hsplit
    generalize (splitGap false cs).2 = rest at hg hb hsplit
    subst hsplit
    cases rest with
    | nil =>
      simp only [List.append_nil, Cursor.lexemes, next_of_isGap hg, if_true]
      exact .done hg
    | cons c ds =>
      have ht := isToken_munch (hb c rfl) ds
      rw [← munch_append c ds] at hg ⊢
      have hpos : 0 < (munch c ds).chars.length := List.length_pos_iff.2 ht.ne_nil
      simp only [Cursor.lexemes, next_of_isToken hg ht, if_neg ht.kind_ne_eof]
      refine .token hg ht (ih ?_)
      simp only [List.length_append, List.length_cons] at hk
      have hlen := congrArg List.length (munch_append c ds)
      simp only [List.length_append, List.length_cons] at hlen
      omega

/-- Every lexeme is at its place. -/
theorem Tiles.place (h : Tiles n cs ls) : ∀ l ∈ ls, ∃ before chars after,
    cs = before ++ chars ++ after ∧
      l.span = ⟨n + byteLength before, n + byteLength (before ++ chars)⟩ ∧
      IsToken after chars l.token := by
  induction h with
  | done => exact List.forall_mem_nil _
  | @token n gap chars rest t ls hg ht _ ih =>
    refine List.forall_mem_cons.2 ⟨⟨gap, chars, rest, ?_, ?_, ht⟩, fun l hl => ?_⟩
    · rw [List.append_assoc]
    · rw [byteLength_append, Nat.add_assoc]
    · obtain ⟨before, chars', after, rfl, hspan, ht'⟩ := ih l hl
      refine ⟨gap ++ chars ++ before, chars', after, ?_, ?_, ht'⟩
      · simp only [List.append_assoc]
      · rw [hspan]
        simp only [byteLength_append, Nat.add_assoc]

/-- The tokens do not overlap. -/
theorem Tiles.pairwise (h : Tiles n cs ls) :
    ls.Pairwise fun a b => a.span.stop ≤ b.span.start := by
  induction h with
  | done => exact .nil
  | token _ _ hrest ih =>
    refine .cons (fun l hl => ?_) ih
    obtain ⟨before, chars, after, -, hspan, -⟩ := hrest.place l hl
    rw [hspan]
    exact Nat.le_add_right _ _

theorem Tiles.length_le (h : Tiles n cs ls) : ls.length ≤ cs.length := by
  induction h with
  | done => exact Nat.zero_le _
  | token _ ht _ ih =>
    have hpos := List.length_pos_iff.2 ht.ne_nil
    simp only [List.length_append, List.length_cons]
    omega

/-- The lexeme that the call of `next` gives after `k` others. -/
def Cursor.call : Nat → Cursor → Lexeme
  | 0, c => c.next.1
  | k + 1, c => Cursor.call k c.next.2

theorem call_end (k n : Nat) : Cursor.call k ⟨[], n⟩ = ⟨⟨.eof, ""⟩, n, n⟩ := by
  induction k with
  | zero => rfl
  | succ k ih => exact ih

/-- The calls give the tokens one by one, and then for ever the end. -/
theorem Tiles.call_eq (h : Tiles n cs ls) (k : Nat) : Cursor.call k ⟨cs, n⟩ =
    ls[k]?.getD ⟨⟨.eof, ""⟩, n + byteLength cs, n + byteLength cs⟩ := by
  induction h generalizing k with
  | done hg =>
    cases k with
    | zero => simp only [Cursor.call, next_of_isGap hg, List.getElem?_nil, Option.getD_none]
    | succ k =>
      simp only [Cursor.call, next_of_isGap hg, call_end, List.getElem?_nil, Option.getD_none]
  | @token n gap chars rest t ls hg ht _ ih =>
    have hend : n + byteLength (gap ++ (chars ++ rest)) =
        n + byteLength gap + byteLength chars + byteLength rest := by
      simp only [byteLength_append, Nat.add_assoc]
    rw [hend]
    cases k with
    | zero =>
      simp only [Cursor.call, next_of_isToken hg ht, List.getElem?_cons_zero, Option.getD_some]
    | succ k =>
      simp only [Cursor.call, next_of_isToken hg ht, List.getElem?_cons_succ]
      exact ih k

end

/-- The tokens of a source tile it: gaps and tokens take turns in it in only one way. One call after
another gives these tokens, each the longest at its place, and then for ever the end of the source.
-/
theorem lexemes_tile (source : String) :
    (∀ k, (Cursor.ofSource source).call k =
        (lexemes source)[k]?.getD ⟨⟨.eof, ""⟩, source.utf8ByteSize, source.utf8ByteSize⟩) ∧
      (∀ l ∈ lexemes source, l.token.kind ≠ .eof) ∧
      (lexemes source).length ≤ source.utf8ByteSize ∧
      ((lexemes source).Pairwise fun a b => a.span.stop ≤ b.span.start) ∧
      (∀ l ∈ lexemes source, ∃ before slice after : String, source = before ++ slice ++ after ∧
        l.span = ⟨before.utf8ByteSize, (before ++ slice).utf8ByteSize⟩ ∧
        l.span.start < l.span.stop ∧ IsToken after.toList slice.toList l.token ∧
        IsLongest (slice ++ after).toList slice.toList) ∧
      ∀ ls, Tiles 0 source.toList ls ↔ ls = lexemes source := by
  have hbound : source.toList.length ≤ source.length := Nat.le_refl _
  have ht : Tiles 0 source.toList (lexemes source) := tiles_lexemes hbound
  have hlen : source.utf8ByteSize = byteLength source.toList := utf8ByteSize_eq source
  refine ⟨fun k => ?_, fun l hl => ?_, ?_, ht.pairwise, fun l hl => ?_, fun ls => ?_⟩
  · have hcall := ht.call_eq k
    rwa [Nat.zero_add, ← hlen] at hcall
  · obtain ⟨-, chars, after, -, -, h⟩ := ht.place l hl
    exact h.kind_ne_eof
  · rw [hlen]
    exact Nat.le_trans ht.length_le (length_le_byteLength _)
  · obtain ⟨before, chars, after, htext, hspan, h⟩ := ht.place l hl
    have hpos : 0 < byteLength chars :=
      Nat.lt_of_lt_of_le (List.length_pos_iff.2 h.ne_nil) (length_le_byteLength chars)
    refine ⟨.ofList before, .ofList chars, .ofList after, ?_, ?_, ?_, ?_, ?_⟩
    · rw [← String.ofList_append, ← String.ofList_append, ← htext, String.ofList_toList]
    · rw [hspan, Nat.zero_add, Nat.zero_add, ← String.ofList_append, utf8ByteSize_eq,
        utf8ByteSize_eq, String.toList_ofList, String.toList_ofList]
    · rw [hspan, byteLength_append]
      exact Nat.add_lt_add_left (Nat.lt_add_of_pos_right hpos) 0
    · rw [String.toList_ofList, String.toList_ofList]
      exact h
    · rw [String.toList_append, String.toList_ofList, String.toList_ofList]
      exact h.isLongest
  · constructor
    · exact fun h => (h.lexemes_eq hbound).symm
    · rintro rfl
      exact ht

end MonkeyLang
