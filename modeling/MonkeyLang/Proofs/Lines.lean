/-
Lines and the text that they make. Where each line is complete, with a semicolon
behind its last statement, no token and no phrase reaches over the end of a line:
the tokens of the joined text are those of the lines, and its program is made of
theirs. So a session that runs the lines one by one and a run of the whole text
agree, up to the first line that ends early.
-/
import MonkeyLang.Proofs.Grammar.Completeness
import MonkeyLang.Proofs.Sequence
import MonkeyLang.Proofs.Series
import MonkeyLang.Proofs.Tiling

namespace MonkeyLang

/-! ## Tokens -/

section

variable {n : Nat} {c : Char} {p : Char → Bool} {a cs ds gap gap' chars rest : List Char}
  {t : Token} {ls ls' : List Lexeme}

/-- The gap at the end of a text goes on in the next line. -/
theorem IsGap.newline (hg : IsGap [] gap) (hg' : IsGap rest gap') :
    IsGap rest (gap ++ '\n' :: gap') := by
  induction hg with
  | nil => exact hg'.separator (by decide)
  | separator hc _ ih => exact ih.separator hc
  | @comment text gap ht hend _ ih =>
    rw [List.append_assoc]
    refine .comment ht ?_ ih
    cases gap with
    | nil => simp
    | cons c gap => simpa using hend

/-- A gap in front of a token does not depend on what follows the token. -/
theorem IsGap.extend (hg : IsGap rest gap) (hr : rest ≠ []) (ds : List Char) :
    IsGap (rest ++ ds) gap := by
  induction hg with
  | nil => exact .nil
  | separator hc _ ih => exact ih.separator hc
  | @comment text gap ht hend _ ih =>
    refine .comment ht ?_ ih
    obtain ⟨c, rest, rfl⟩ := List.exists_cons_of_ne_nil hr
    cases gap <;> exact hend

theorem forall_head_newline (hp : p '\n' = false) (hr : ∀ c ∈ rest.head?, p c = false) :
    ∀ c ∈ (rest ++ '\n' :: ds).head?, p c = false := by
  cases rest with
  | nil => simpa using hp
  | cons c rest => exact hr

theorem IsRun.newline (h : IsRun p rest cs) (hp : p '\n' = false) (ds : List Char) :
    IsRun p (rest ++ '\n' :: ds) cs :=
  ⟨h.ne_nil, h.all, forall_head_newline hp h.stops⟩

theorem misleads_newline : Misleads (rest ++ '\n' :: ds) ↔ Misleads rest := by
  cases rest with
  | nil => simp [Misleads]
  | cons c rest => exact Iff.rfl

/-- A token ends at the line feed, unless it is a string without an end. -/
theorem IsToken.newline (h : IsToken rest chars t) (hopen : t.kind ≠ .string ∨ rest ≠ [])
    (ds : List Char) : IsToken (rest ++ '\n' :: ds) chars t := by
  cases h with
  | closed hq => exact .closed hq
  | unclosed hq hr => exact absurd hr (hopen.resolve_left fun h => h rfl)
  | number h => exact .number (h.newline (by decide) ds)
  | keyword h hk hm => exact .keyword (h.newline (by decide) ds) hk (mt misleads_newline.1 hm)
  | name h hk => exact .name (h.newline (by decide) ds) (hk.imp id misleads_newline.2)
  | symbolEq hk => exact .symbolEq hk
  | symbol hk he =>
    refine .symbol hk (he.imp id fun hgo => ?_)
    cases rest with
    | nil => simp [GoesOnEqual]
    | cons c rest => exact hgo
  | illegal hb hq hd hn hs => exact .illegal hb hq hd hn hs

/-- The tiling of a text goes on with that of the next line, if no string is left open. -/
theorem Tiles.newline (h : Tiles n cs ls) (hopen : ∀ l ∈ ls.getLast?, l.token.kind ≠ .string)
    (h' : Tiles (n + byteLength cs + 1) ds ls') : Tiles n (cs ++ '\n' :: ds) (ls ++ ls') := by
  induction h with
  | @done n gap hg =>
    cases h' with
    | done hg' => exact .done (hg.newline hg')
    | @token _ gap' chars rest t ls hg' ht hrest =>
      have hlen : n + byteLength gap + 1 + byteLength gap' =
          n + byteLength (gap ++ '\n' :: gap') := by
        have hline : byteLength ('\n' :: gap') = 1 + byteLength gap' := rfl
        rw [byteLength_append, hline, Nat.add_assoc, Nat.add_assoc]
      rw [hlen] at hrest ⊢
      have hall := Tiles.token (hg.newline hg') ht hrest
      rwa [List.append_assoc, List.cons_append] at hall
  | @token n gap chars rest t ls hg ht hrest ih =>
    have hlast : ∀ l ∈ ls.getLast?, l.token.kind ≠ .string := by
      intro l hl
      refine hopen l ?_
      rw [List.getLast?_cons, Option.mem_def.1 hl]
      rfl
    have hclosed : t.kind ≠ .string ∨ rest ≠ [] := by
      by_cases hr : rest = []
      · subst hr
        obtain rfl : ls = [] := List.length_eq_zero_iff.1 (Nat.le_zero.1 hrest.length_le)
        exact .inl (hopen _ rfl)
      · exact .inr hr
    have hstop : n + byteLength (gap ++ (chars ++ rest)) =
        n + byteLength gap + byteLength chars + byteLength rest := by
      simp only [byteLength_append, Nat.add_assoc]
    rw [hstop] at h'
    have hgap := hg.extend (List.append_ne_nil_of_left_ne_nil ht.ne_nil rest) ('\n' :: ds)
    rw [List.append_assoc] at hgap
    have hall := Tiles.token hgap (ht.newline hclosed ds) (ih hlast h')
    simpa only [List.append_assoc, List.cons_append] using hall

/-- The tokens of a text and those of the next line, if no string is left open. -/
theorem lex_newline (h : ∀ t ∈ (lex a).getLast?, t.kind ≠ .string) (b : List Char) :
    lex (a ++ '\n' :: b) = lex a ++ lex b := by
  obtain ⟨ls, ha⟩ : ∃ ls, Tiles 0 a ls := ⟨_, tiles_lexemes (Nat.le_refl _)⟩
  obtain ⟨ls', hb⟩ : ∃ ls', Tiles (0 + byteLength a + 1) b ls' :=
    ⟨_, tiles_lexemes (Nat.le_refl _)⟩
  have hopen : ∀ l ∈ ls.getLast?, l.token.kind ≠ .string := by
    intro l hl
    refine h l.token ?_
    rw [ha.lex_eq, List.getLast?_map, Option.mem_def.1 hl]
    rfl
  rw [(ha.newline hopen hb).lex_eq, ha.lex_eq, hb.lex_eq, List.map_append]

end

/-! ## Programs -/

namespace Grammar

/-- The last of the tokens is there and is no semicolon. -/
def Shut (ts : List Token) : Prop := ∃ us t, ts = us ++ [t] ∧ t.kind ≠ .semicolon

/-- Lists of phrases and of statements may be empty; no other phrase is, nor does it end in a
semicolon. -/
def MayEnd : Phrase → List Token → Prop
  | .list _, _ | .stmts, _ => True
  | _, ts => Shut ts

section

variable {p : Phrase} {ts us : List Token} {a : p.Tree} {b d : Program} {k : Kind} {w : String}

theorem Shut.append (h : Shut us) (ts : List Token) : Shut (ts ++ us) := by
  obtain ⟨vs, t, rfl, ht⟩ := h
  exact ⟨ts ++ vs, t, (List.append_assoc ..).symm, ht⟩

theorem Shut.cons (h : Shut us) (t : Token) : Shut (t :: us) := h.append [t]

theorem shut_singleton (h : k ≠ .semicolon) : Shut [⟨k, w⟩] := ⟨[], _, rfl, h⟩

theorem shut_append (ts : List Token) (h : k ≠ .semicolon) : Shut (ts ++ [⟨k, w⟩]) :=
  (shut_singleton h).append ts

theorem Derives.mayEnd (h : Derives p ts a) : MayEnd p ts := by
  induction h with
  | assign _ _ _ ih | binary _ _ _ _ ih | entry _ _ _ ih => exact (ih.cons _).append _
  | unary _ _ ih | ret _ ih => exact ih.cons _
  | tighter _ ih | eval _ ih => exact ih
  | define _ ih => exact ((ih.cons _).cons _).cons _
  | ifThen _ _ _ ih | whileDo _ _ _ ih | function _ _ _ ih =>
    exact (((ih.cons _).append _).cons _).cons _
  | ifElse _ _ _ _ _ ih => exact (ih.cons _).append _
  | forIn _ _ _ ih => exact (((ih.cons _).append _).cons _).cons _
  | none | last | more | stop | closed | «open» => trivial
  | call | index | group | array | hash | block | targetGroup => exact shut_append _ (by decide)
  | ident | integer | string | true | false | targetName | param | brk | cont =>
    exact shut_singleton (by decide)

/-- The tokens are complete statements: there are none, or the last is a semicolon. -/
def Complete (ts : List Token) : Prop := ∀ t ∈ ts.getLast?, t.kind = .semicolon

instance (ts : List Token) : Decidable (Complete ts) :=
  inferInstanceAs (Decidable (∀ t ∈ ts.getLast?, t.kind = .semicolon))

theorem Complete.right (h : Complete (ts ++ us)) : Complete us := by
  intro t ht
  refine h t ?_
  rw [List.getLast?_append, Option.mem_def.1 ht]
  rfl

theorem Complete.tail {t : Token} (h : Complete (t :: ts)) : Complete ts :=
  Complete.right (show Complete ([t] ++ ts) from h)

theorem Shut.not_complete (h : Shut ts) : ¬Complete ts := by
  obtain ⟨us, t, rfl, ht⟩ := h
  exact fun hc => ht (hc t (by simp))

theorem MayStayOpen.append {st : Stmt} (h : MayStayOpen st us) (hu : us ≠ []) (vs : List Token) :
    MayStayOpen st (us ++ vs) := by
  cases us with
  | nil => exact absurd rfl hu
  | cons t us => exact h

/-- The statements of two programs, of which the first is complete, make up one. -/
theorem Derives.append (h : Derives .stmts ts b) (hc : Complete ts) (h' : Derives .stmts us d) :
    Derives .stmts (ts ++ us) (b ++ d) := by
  induction b generalizing ts with
  | nil =>
    cases h
    exact h'
  | cons st b ih =>
    cases h with
    | @closed ts _ vs _ w hst hb =>
      rw [List.append_assoc]
      exact hst.closed (ih hb hc.right.tail)
    | @«open» ts _ vs _ hst ho hb =>
      have hvs : vs ≠ [] := by
        rintro rfl
        rw [List.append_nil] at hc
        exact hst.mayEnd.not_complete hc
      rw [List.append_assoc]
      exact hst.open (ho.append hvs _) (ih hb hc.right)

/-- Only a text without tokens is a program without statements. -/
theorem Derives.eq_nil_iff (h : Derives .stmts ts b) : ts = [] ↔ b = [] := by
  cases h with
  | stop => simp
  | closed => simp
  | @«open» ts _ us _ hst =>
    obtain ⟨t, vs, rfl, -⟩ := hst.opens_stmt
    simp

end

end Grammar

/-! ## Texts -/

open Grammar

/-- The lines as one text. -/
def joinLines (ls : List String) : String := "\n".intercalate ls

/-- There is no error in the text, and if it has tokens, the last of them is a semicolon. A line
feed within it would do no harm. -/
structure IsLine (l : String) : Prop where
  parses : (parse l).errors = []
  complete : Complete (tokens l)

/-- The program of the lines. -/
def linesProgram (ls : List String) : Program := ls.flatMap fun l => (parse l).program

section

variable {l : String} {ls : List String}

/-- The tokens of complete statements, and those of what comes on the next line. -/
theorem tokens_newline (h : Complete (tokens l)) (b : String) :
    tokens (l ++ "\n" ++ b) = tokens l ++ tokens b := by
  have hopen : ∀ t ∈ (lex l.toList).getLast?, t.kind ≠ .string := by
    intro t ht hk
    rw [h t ht] at hk
    cases hk
  have hjoin : (l ++ "\n" ++ b).toList = l.toList ++ '\n' :: b.toList := by
    rw [String.toList_append, String.toList_append, List.append_assoc]
    rfl
  rw [tokens_eq_lex, hjoin, lex_newline hopen, ← tokens_eq_lex, ← tokens_eq_lex]

/-- The tokens of complete lines are those of the text. -/
theorem tokens_joinLines (h : ∀ l ∈ ls, Complete (tokens l)) :
    tokens (joinLines ls) = ls.flatMap tokens := by
  induction ls with
  | nil => exact lex_eq []
  | cons l ls ih =>
    obtain ⟨hl, hls⟩ := List.forall_mem_cons.1 h
    cases ls with
    | nil => exact (List.append_nil _).symm
    | cons l' ls =>
      rw [joinLines, String.intercalate_cons_cons, tokens_newline hl, ← joinLines, ih hls]
      rfl

theorem derives_lines (h : ∀ l ∈ ls, IsLine l) :
    Derives .stmts (ls.flatMap tokens) (linesProgram ls) := by
  induction ls with
  | nil => exact .stop
  | cons l ls ih =>
    obtain ⟨hl, hls⟩ := List.forall_mem_cons.1 h
    exact (derives_of_parse hl.parses).append hl.complete (ih hls)

/-- There is no error in the text, and its program is that of the lines. -/
theorem parse_joinLines (h : ∀ l ∈ ls, IsLine l) :
    parse (joinLines ls) = ⟨linesProgram ls, []⟩ := by
  apply parse_of_derives
  rw [tokens_joinLines fun l hl => (h l hl).complete]
  exact derives_lines h

end

/-! ## Sessions -/

namespace Session

open Machine

/-- The program of the source is left early: by a `return`, an error or a jump out of no loop. -/
def EndsEarly (source : String) (s : Session) : Prop :=
  ∃ n sig w, (load (parse source).program s.globals s.world).run (some callLimit) n =
    some (.error sig, w)

/-- None of the lines, run one after another, ends early. -/
def Quiet : List String → Session → Prop
  | [], _ => True
  | l :: ls, s => ¬s.EndsEarly l ∧ ∀ n a t, s.run n l = some (a, t) → Quiet ls t

/-- The answer to the last of the lines with tokens, or the one before if there is none. -/
def lastAnswer (before : Answer) (ls : List String) (as : List Answer) : Answer :=
  (((ls.zip as).filter fun p => !(tokens p.1).isEmpty).getLast?.map (·.2)).getD before

section

variable {n k : Nat} {l : String} {ls : List String} {s t t' : Session} {a b : Answer}
  {as : List Answer} {r : Option Value} {o : Outcome} {u : World}

/-- The run of a line that does not end early. What the program has come to is the value of the
line if it has tokens. -/
theorem rest_of_quiet (hl : IsLine l) (h : s.run n l = some (a, t)) (hq : ¬s.EndsEarly l)
    (r : Option Value) : ∃ r', Ends (some callLimit)
        (rest (parse l).program (.ok r) s.globals s.world) (.ok r') t.world ∧
      t = ⟨t.world, s.globals⟩ ∧
      .value (r'.getD .null) = if tokens l = [] then .value (r.getD .null) else a := by
  obtain ⟨o, u, ho, rfl, rfl⟩ := (run_iff hl.parses).1 ⟨n, h⟩
  have hp := (derives_of_parse hl.parses).eq_nil_iff
  cases o with
  | error sig =>
    obtain ⟨k, hk⟩ := ho
    exact absurd ⟨k, sig, u, hk⟩ hq
  | ok r₀ =>
    have hrest := ho.rest r
    by_cases ht : tokens l = []
    · rw [if_pos (hp.1 ht)] at hrest
      exact ⟨r, hrest, rfl, (if_pos ht).symm⟩
    · rw [if_neg (mt hp.2 ht)] at hrest
      exact ⟨r₀, hrest, rfl, (if_neg ht).symm⟩

theorem rest_of_early (hl : IsLine l) (h : s.run n l = some (a, t)) (he : s.EndsEarly l)
    (r : Option Value) : ∃ sig, Ends (some callLimit)
        (rest (parse l).program (.ok r) s.globals s.world) (.error sig) t.world ∧
      t = ⟨t.world, s.globals⟩ ∧ a = .value (Machine.Outcome.value (.error sig)) := by
  obtain ⟨o, u, ho, rfl, rfl⟩ := (run_iff hl.parses).1 ⟨n, h⟩
  obtain ⟨k, sig, w, hk⟩ := he
  obtain ⟨rfl, rfl⟩ := ho.unique ⟨k, hk⟩
  have hrest := ho.rest r
  rw [if_neg (ne_nil_of_ends ho)] at hrest
  exact ⟨sig, hrest, rfl, rfl⟩

theorem lastAnswer_cons : lastAnswer b (l :: ls) (a :: as) =
    lastAnswer (if tokens l = [] then b else a) ls as := by
  simp only [lastAnswer, List.zip_cons_cons, List.filter_cons]
  cases ht : tokens l with
  | nil => rfl
  | cons u us =>
    simp only [List.isEmpty_cons, Bool.not_false, if_true, List.getLast?_cons, reduceCtorEq,
      if_false]
    cases ((ls.zip as).filter fun p => !(tokens p.1).isEmpty).getLast? <;> rfl

/-- The program of the lines comes to what the session has come to. -/
theorem rest_of_runAll (hls : ∀ l ∈ ls, IsLine l) (h : runAll (run n) ls s = some (as, t))
    (hq : s.Quiet ls) (r : Option Value) : ∃ r', Ends (some callLimit)
        (rest (linesProgram ls) (.ok r) s.globals s.world) (.ok r') t.world ∧
      t = ⟨t.world, s.globals⟩ ∧
      .value (r'.getD .null) = lastAnswer (.value (r.getD .null)) ls as := by
  induction ls generalizing s as r with
  | nil =>
    cases h
    exact ⟨r, ends_rest_nil.2 ⟨rfl, rfl⟩, rfl, rfl⟩
  | cons l ls ih =>
    obtain ⟨hl, hls⟩ := List.forall_mem_cons.1 hls
    obtain ⟨a, as, s', ha, has, rfl⟩ := runAll_cons_eq_some h
    obtain ⟨hquiet, hq⟩ := hq
    obtain ⟨r₁, hr₁, hs', hv₁⟩ := rest_of_quiet hl ha hquiet r
    obtain ⟨r₂, hr₂, ht, hv₂⟩ := ih hls has (hq n a s' ha) r₁
    rw [hs'] at hr₂ ht
    refine ⟨r₂, ends_rest_append.2 ⟨_, _, hr₁, hr₂⟩, ht, ?_⟩
    rw [hv₂, lastAnswer_cons, hv₁]

theorem run_unique {x y : Answer × Session} (h : s.run n l = some x) (h' : s.run k l = some y) :
    x = y := by
  have hn := run_mono h (Nat.le_max_left n k)
  have hk := run_mono h' (Nat.le_max_right n k)
  exact Option.some.inj (hn.symm.trans hk)

theorem Quiet.cons (hn : s.run n l = some (a, t)) (hl : ¬s.EndsEarly l) (hq : t.Quiet ls) :
    s.Quiet (l :: ls) := by
  refine ⟨hl, fun k b u hk => ?_⟩
  obtain ⟨rfl, rfl⟩ := Prod.mk.inj (run_unique hn hk)
  exact hq

/-- A series after a first run, with enough steps for both. -/
theorem runAll_cons_max (hn : s.run n l = some (a, t)) (h : runAll (run k) ls t = some (as, t')) :
    runAll (run (max n k)) (l :: ls) s = some (a :: as, t') := by
  have hrun : ∀ l s x, run k l s = some x → run (max n k) l s = some x :=
    fun l s x hx => run_mono hx (Nat.le_max_right n k)
  rw [runAll_cons (run_mono hn (Nat.le_max_left n k)), runAll_mono hrun h, Option.map_some]

/-- The run of the text. -/
theorem run_joinLines_iff (hls : ∀ l ∈ ls, IsLine l) :
    (∃ k, s.run k (joinLines ls) = some (a, t)) ↔
      ∃ o u, Ends (some callLimit) (rest (linesProgram ls) (.ok none) s.globals s.world) o u ∧
        a = .value o.value ∧ t = ⟨u, s.globals⟩ := by
  have hp := parse_joinLines hls
  rw [run_iff (by rw [hp])]
  simp only [hp, ends_load]

/-- What the program of the lines comes to, the session comes to, or there is a first line that
ends early, and the session comes to it there. -/
theorem series_of_rest (hls : ∀ l ∈ ls, IsLine l)
    (h : Ends (some callLimit) (rest (linesProgram ls) (.ok r) s.globals s.world) o u) :
    (∃ n as, runAll (run n) ls s = some (as, ⟨u, s.globals⟩) ∧ s.Quiet ls) ∨
      ∃ n before l after as s', ls = before ++ l :: after ∧
        runAll (run n) before s = some (as, s') ∧ s.Quiet before ∧ s'.EndsEarly l ∧
        s'.run n l = some (.value o.value, ⟨u, s.globals⟩) := by
  induction ls generalizing s r with
  | nil =>
    obtain ⟨-, rfl⟩ := ends_rest_nil.1 h
    exact .inl ⟨0, [], rfl, trivial⟩
  | cons l ls ih =>
    obtain ⟨hl, hls⟩ := List.forall_mem_cons.1 hls
    obtain ⟨o₁, u₁, h₁, h₂⟩ := ends_rest_append.1 h
    obtain ⟨o₀, h₀, rfl⟩ := ends_rest_iff.1 h₁
    obtain ⟨n₀, hn₀⟩ := (run_iff hl.parses).2 ⟨o₀, u₁, h₀, rfl, rfl⟩
    cases o₀ with
    | error sig =>
      have hearly : s.EndsEarly l := h₀.imp fun n hn => ⟨sig, u₁, hn⟩
      rw [if_neg (ne_nil_of_ends h₀)] at h₂
      obtain ⟨rfl, rfl⟩ := ends_rest_error.1 h₂
      exact .inr ⟨n₀, [], l, ls, [], s, rfl, rfl, trivial, hearly, hn₀⟩
    | ok r₀ =>
      have hquiet : ¬s.EndsEarly l := by
        rintro ⟨n, sig, w, hn⟩
        cases (h₀.unique ⟨n, hn⟩).1
      rw [← apply_ite] at h₂
      obtain ⟨n, as, has, hq⟩ | ⟨n, before, l', after, as, s', rfl, has, hq, hearly, hl'⟩ :=
        ih (s := ⟨u₁, s.globals⟩) hls h₂
      · exact .inl ⟨_, _, runAll_cons_max hn₀ has, .cons hn₀ hquiet hq⟩
      · exact .inr ⟨_, l :: before, l', after, _, s', rfl, runAll_cons_max hn₀ has,
          .cons hn₀ hquiet hq, hearly, run_mono hl' (Nat.le_max_right _ n)⟩

/-- A session that runs complete lines one by one agrees with one run of the text that they make.
If no line ends early, the text leaves the session that the lines leave, with the answer to the last
line with tokens; otherwise it leaves what the first line that ends early leaves, with the answer to
that line. And the text comes to an end only if the lines do, so far. -/
theorem run_joinLines (hls : ∀ l ∈ ls, IsLine l) (s : Session) :
    (parse (joinLines ls)).errors = [] ∧
    (∀ n as t, runAll (run n) ls s = some (as, t) → s.Quiet ls →
      ∃ k, s.run k (joinLines ls) = some (lastAnswer (.value .null) ls as, t)) ∧
    (∀ n before l after as s' a t, ls = before ++ l :: after →
      runAll (run n) before s = some (as, s') → s.Quiet before →
      s'.run n l = some (a, t) → s'.EndsEarly l →
      ∃ k, s.run k (joinLines ls) = some (a, t)) ∧
    ∀ k a t, s.run k (joinLines ls) = some (a, t) →
      (∃ n as, runAll (run n) ls s = some (as, t) ∧ s.Quiet ls) ∨
      ∃ n before l after as s', ls = before ++ l :: after ∧
        runAll (run n) before s = some (as, s') ∧ s.Quiet before ∧ s'.EndsEarly l ∧
        s'.run n l = some (a, t) := by
  refine ⟨by rw [parse_joinLines hls], ?_, ?_, ?_⟩
  · intro n as t h hq
    obtain ⟨r, hr, ht, hv⟩ := rest_of_runAll hls h hq none
    exact (run_joinLines_iff hls).2 ⟨.ok r, t.world, hr, hv.symm, ht⟩
  · rintro n before l after as s' a t rfl h hq ha he
    obtain ⟨hbefore, hl⟩ := List.forall_mem_append.1 hls
    obtain ⟨r, hr, hs', -⟩ := rest_of_runAll hbefore h hq none
    obtain ⟨sig, hsig, ht, rfl⟩ := rest_of_early (hl l List.mem_cons_self) ha he r
    rw [hs'] at hsig ht
    have hwhole : Ends (some callLimit)
        (rest (linesProgram (before ++ l :: after)) (.ok none) s.globals s.world)
        (.error sig) t.world := by
      rw [linesProgram, List.flatMap_append, List.flatMap_cons]
      exact ends_rest_append.2 ⟨_, _, hr, ends_rest_append.2
        ⟨_, _, hsig, ends_rest_error.2 ⟨rfl, rfl⟩⟩⟩
    exact (run_joinLines_iff hls).2 ⟨_, _, hwhole, rfl, ht⟩
  · intro k a t h
    obtain ⟨o, u, hr, rfl, rfl⟩ := (run_joinLines_iff hls).1 ⟨k, h⟩
    exact series_of_rest hls hr

end

/-- The first line returns a text with a number sign and a semicolon in it, and has a comment. -/
def interrupted : List String := ["return \"#;\"; # done", "puts(2);"]

theorem run_joinLines_interrupted :
    ∃ k v t, (fresh fun _ => 0).run k (joinLines interrupted) = some (.value v, t) ∧
      v.display = "#;" ∧ t.world.output = "" := by
  have hlines : ∀ l ∈ interrupted, (parse l).errors.isEmpty ∧ Complete (tokens l) := by
    decide +kernel
  have hls : ∀ l ∈ interrupted, IsLine l :=
    fun l hl => ⟨List.isEmpty_iff.1 (hlines l hl).1, (hlines l hl).2⟩
  obtain ⟨s, hs⟩ : ∃ s, s = fresh fun _ => 0 := ⟨_, rfl⟩
  have hfirst : ((load (parse "return \"#;\"; # done").program s.globals s.world).run
      (some callLimit) 10).map (fun r => (r.1.toOption.isSome, r.1.value.display, r.2.output)) =
        some (false, "#;", "") := by
    rw [hs]
    decide +kernel
  rw [← hs]
  obtain ⟨⟨o, w⟩, hrun, he⟩ := Option.map_eq_some_iff.1 hfirst
  simp only [Prod.mk.injEq] at he
  obtain ⟨hearly, hdisplay, hout⟩ := he
  cases o with
  | ok r => cases hearly
  | error sig =>
    obtain ⟨n, hn⟩ := (run_iff (hls _ List.mem_cons_self).parses).2 ⟨_, w, ⟨10, hrun⟩, rfl, rfl⟩
    obtain ⟨-, -, hstop, -⟩ := run_joinLines hls s
    obtain ⟨k, hk⟩ := hstop n [] _ ["puts(2);"] [] s _ _ rfl rfl trivial hn ⟨10, sig, w, hrun⟩
    exact ⟨k, _, _, hk, hdisplay, hout⟩

end Session

end MonkeyLang
