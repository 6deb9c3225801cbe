/-
Complete statements in front of any text. The text is read as it would be read
alone, with all its errors: behind a semicolon no token and no statement goes on,
and what the parser does there does not depend on what it has read before.
-/
import MonkeyLang.Proofs.Lines
import MonkeyLang.Proofs.Progress

namespace MonkeyLang

open Grammar

namespace Parser

section

variable {q : Parser Stmt} {n m : Nat} {ts us mid : List Token} {st : Stmt} {b : Program}

/-- A statement that can be read, and the program behind it. -/
theorem program_of_reads (hts : Opens ts) (hs : q.Reads ts st mid) :
    (program q (m + 1)).run ts =
      let p := (program q m).run mid
      ⟨p.value.map (st :: ·), p.errors, p.rest⟩ := by
  rw [program_succ (ahead_of_opens hts (by decide)), show q.run ts = ⟨some st, [], mid⟩ from hs]
  rfl

/-- An open statement ends in front of another one, whatever stands behind that. -/
theorem ends_before (ho : MayStayOpen st us) (hu : Opens us) (rest : List Token) :
    Ends st (us ++ rest) (us ++ rest) := by
  obtain ⟨t, vs, rfl, -⟩ := id hu
  exact .inr ⟨ho, ahead_of_opens (hu.append rest) (by decide), rfl⟩

/-- Complete statements are read without a look at what follows them. -/
theorem program_append (h : Derives .stmts ts b) (hc : Complete ts) (hn : 3 * ts.length + 2 ≤ n)
    (m : Nat) (us : List Token) :
    (program (stmt n) (m + b.length)).run (ts ++ us) =
      let p := (program (stmt n) m).run us
      ⟨p.value.map (b ++ ·), p.errors, p.rest⟩ := by
  induction b generalizing ts with
  | nil =>
    cases h
    simp only [List.nil_append, Option.map_id', List.length_nil, Nat.add_zero]
  | cons st b ih =>
    -- In both cases the statement is read, and the others with what follows them are left.
    obtain ⟨vs, hc, hb, hlen, hopens, hs⟩ : ∃ vs, Complete vs ∧ Derives .stmts vs b ∧
        vs.length ≤ ts.length ∧ Opens (ts ++ us) ∧ (stmt n).Reads (ts ++ us) st (vs ++ us) := by
      cases h with
      | @closed ts _ vs _ w hst hb =>
        have hlen : 3 * ts.length + 2 ≤ n := by
          simp only [List.length_append] at hn
          omega
        refine ⟨vs, hc.right.tail, hb, by simp; omega, ?_, ?_⟩
        · exact (hst.opens_stmt.append _).append us
        · rw [List.append_assoc]
          exact taken hst hlen (.inl ⟨w, rfl⟩) (by simp)
      | @«open» ts _ vs _ hst ho hb =>
        have hlen : 3 * ts.length + 2 ≤ n := by
          simp only [List.length_append] at hn
          omega
        have hvs : Opens vs := by
          refine hb.mayBegin.resolve_left ?_
          rintro rfl
          rw [List.append_nil] at hc
          exact hst.mayEnd.not_complete hc
        refine ⟨vs, hc.right, hb, by simp, (hst.opens_stmt.append _).append us, ?_⟩
        rw [List.append_assoc]
        exact taken hst hlen (ends_before ho hvs us) (ahead_of_opens (hvs.append us) (by decide))
    rw [List.length_cons, ← Nat.add_assoc, program_of_reads hopens hs, ih hb hc (by omega)]
    simp only [Option.map_map]
    rfl

/-- Complete statements make no difference to the errors and to the statements behind them. -/
theorem parseTokens_append (h : Derives .stmts ts b) (hc : Complete ts)
    (hts : ∀ t ∈ ts, t.kind ≠ .eof) (hus : ∀ t ∈ us, t.kind ≠ .eof) :
    parseTokens (ts ++ us) = ⟨b ++ (parseTokens us).program, (parseTokens us).errors⟩ := by
  have hall : ∀ t ∈ ts ++ us, t.kind ≠ .eof := List.forall_mem_append.2 ⟨hts, hus⟩
  obtain ⟨n, hn⟩ : ∃ n, n = 3 * (ts ++ us).length + 3 := ⟨_, rfl⟩
  have hlen : (ts ++ us).length = ts.length + us.length := List.length_append
  have hparts := program_append h hc (n := n) (by omega) n us
  rw [program_settles hall (by omega) (by omega), program_settles hus (by omega) (by omega)]
    at hparts
  simp only [Option.map_some, Parsed.mk.injEq, Option.some.injEq] at hparts
  obtain ⟨hp, he, -⟩ := hparts
  rw [← hp, ← he]

end

end Parser

/-- Any text behind complete statements gives the same statements and the same errors as alone. -/
theorem parse_newline {a : String} (h : IsLine a) (b : String) :
    parse (a ++ "\n" ++ b) = ⟨(parse a).program ++ (parse b).program, (parse b).errors⟩ := by
  have hparts := Parser.parseTokens_append (derives_of_parse h.parses) h.complete
    (fun _ => kind_ne_eof_of_mem_tokens) fun t (ht : t ∈ tokens b) => kind_ne_eof_of_mem_tokens ht
  rwa [← tokens_newline h.complete] at hparts

/-- The second text has an illegal character, a block without an end and a string without an end. -/
theorem parse_newline_broken :
    (parse ("let a = 1; # \"" ++ "\n" ++ "@ let f = fn(x) \x7b return \"x")).errors =
      (parse "@ let f = fn(x) \x7b return \"x").errors ∧
    (parse "@ let f = fn(x) \x7b return \"x").errors.length = 2 := by
  have hline : (parse "let a = 1; # \"").errors.isEmpty ∧ Complete (tokens "let a = 1; # \"") := by
    decide +kernel
  rw [parse_newline ⟨List.isEmpty_iff.1 hline.1, hline.2⟩]
  exact ⟨rfl, by decide +kernel⟩

end MonkeyLang
