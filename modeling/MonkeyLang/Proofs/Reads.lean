/-
What a parser reads when it meets no error: `p.Reads ts a rest` says that `p`
takes `a` off the front of `ts` and leaves `rest`. Each parser built from others
reads what its parts read one after the other. A parser that gives no value has
met an error (`Honest`), so a run without errors is one that reads.
-/
import MonkeyLang.Parser

namespace MonkeyLang.Parser

/-- The parser reads `a` off `ts` without an error and leaves `rest`. -/
def Reads {α : Type} (p : Parser α) (ts : List Token) (a : α) (rest : List Token) : Prop :=
  p.run ts = ⟨some a, [], rest⟩

/-- The kind of the first token; after the last one comes the end of the source. -/
def ahead : List Token → Kind
  | [] => .eof
  | t :: _ => t.kind

@[simp] theorem ahead_nil : ahead [] = .eof := rfl

@[simp] theorem ahead_cons (t : Token) (ts : List Token) : ahead (t :: ts) = t.kind := rfl

section

variable {α β : Type} {p : Parser α} {f : α → Parser β} {ts rest : List Token} {a : α} {b : β}
  {k want : Kind}

@[simp] theorem reads_pure {c : α} : (pure c : Parser α).Reads ts a rest ↔ a = c ∧ rest = ts := by
  simp only [Reads, run, pure, Parser.pure, Parsed.mk.injEq, Option.some.injEq, true_and]
  exact and_congr eq_comm eq_comm

@[simp] theorem reads_bind :
    (p >>= f).Reads ts b rest ↔ ∃ a mid, p.Reads ts a mid ∧ (f a).Reads mid b rest := by
  simp only [Reads, run, bind, Parser.bind]
  constructor
  · intro h
    rcases hp : p ts with ⟨_ | a, errors, mid⟩
    · simp [hp] at h
    · simp only [hp, Parsed.mk.injEq, List.append_eq_nil_iff] at h
      obtain ⟨hv, ⟨rfl, he⟩, hr⟩ := h
      exact ⟨a, mid, rfl, by rw [← hv, ← he, ← hr]⟩
  · rintro ⟨a, mid, hp, hf⟩
    simp [hp, hf]

@[simp] theorem not_reads_fail {e : ParseError} : ¬(fail e : Parser α).Reads ts a rest := by
  simp [Reads, run, fail]

@[simp] theorem reads_peek : peek.Reads ts k rest ↔ k = ahead ts ∧ rest = ts := by
  cases ts <;> simp only [Reads, run, peek, ahead, Parsed.mk.injEq, Option.some.injEq, true_and] <;>
    exact and_congr eq_comm eq_comm

/-- The next token is the first one; there is another one only after the last. -/
theorem reads_next {t : Token} :
    next.Reads ts t rest ↔ ts = t :: rest ∨ (ts = [] ∧ t = ⟨.eof, ""⟩ ∧ rest = []) := by
  cases ts with
  | nil => simp [Reads, run, next, eq_comm]
  | cons u us => simp [Reads, run, next]

@[simp] theorem not_reads_unexpected : ¬(unexpected want : Parser α).Reads ts a rest := by
  simp [unexpected]

theorem reads_expect {t : Token} (hw : want ≠ .eof) :
    (expect want).Reads ts t rest ↔ ts = t :: rest ∧ t.kind = want := by
  cases ts with
  | nil => simp [expect, hw.symm]
  | cons u us =>
    simp only [expect, reads_bind, reads_peek, ahead_cons]
    constructor
    · rintro ⟨_, _, ⟨rfl, rfl⟩, h⟩
      split at h
      · rename_i hk
        rcases reads_next.1 h with h | ⟨h, -⟩ <;> simp_all
      · simp at h
    · rintro ⟨h, hk⟩
      obtain ⟨rfl, rfl⟩ := List.cons.inj h
      exact ⟨_, _, ⟨rfl, rfl⟩, by simp [hk, reads_next]⟩

theorem reads_symbol {u : Unit} (hw : want ≠ .eof) :
    (symbol want).Reads ts u rest ↔ ∃ w, ts = ⟨want, w⟩ :: rest := by
  simp only [symbol, reads_bind, reads_expect hw, reads_pure]
  constructor
  · rintro ⟨⟨_, w⟩, mid, ⟨rfl, rfl⟩, -, rfl⟩
    exact ⟨w, rfl⟩
  · rintro ⟨w, rfl⟩
    exact ⟨⟨want, w⟩, rest, ⟨rfl, rfl⟩, trivial, rfl⟩

theorem reads_name {x : String} : name.Reads ts x rest ↔ ts = ⟨.ident, x⟩ :: rest := by
  simp (disch := decide) only [name, reads_bind, reads_expect, reads_pure]
  constructor
  · rintro ⟨⟨_, w⟩, mid, ⟨rfl, rfl⟩, rfl, rfl⟩
    rfl
  · rintro rfl
    exact ⟨⟨.ident, x⟩, rest, ⟨rfl, rfl⟩, rfl, rfl⟩

/-- A token that may be missing is read when it is there. -/
theorem reads_accept {b : Bool} (hw : want ≠ .eof) :
    (accept want).Reads ts b rest ↔
      (b = true ∧ ∃ w, ts = ⟨want, w⟩ :: rest) ∨ (b = false ∧ ahead ts ≠ want ∧ rest = ts) := by
  simp only [accept, reads_bind, reads_peek]
  constructor
  · rintro ⟨_, _, ⟨rfl, rfl⟩, h⟩
    split at h
    · rename_i hk
      simp only [reads_bind, reads_pure] at h
      obtain ⟨⟨k, w⟩, mid, h, rfl, rfl⟩ := h
      rcases reads_next.1 h with rfl | ⟨rfl, -⟩
      · exact .inl ⟨rfl, w, by rw [← hk]; rfl⟩
      · exact absurd hk.symm hw
    · rename_i hk
      obtain ⟨rfl, rfl⟩ := reads_pure.1 h
      exact .inr ⟨rfl, hk, rfl⟩
  · rintro (⟨rfl, w, rfl⟩ | ⟨rfl, hk, rfl⟩)
    · exact ⟨_, _, ⟨rfl, rfl⟩, by simp [reads_next]⟩
    · exact ⟨_, _, ⟨rfl, rfl⟩, by simp [hk]⟩

theorem reads_semicolon {u : Unit} :
    semicolon.Reads ts u rest ↔
      (∃ w, ts = ⟨.semicolon, w⟩ :: rest) ∨ (ahead ts ≠ .semicolon ∧ rest = ts) := by
  simp (disch := decide) only [semicolon, reads_bind, reads_accept, reads_pure]
  constructor
  · rintro ⟨_, mid, ⟨-, h⟩ | ⟨-, h⟩, -, rfl⟩
    · exact .inl h
    · exact .inr h
  · rintro (h | h)
    · exact ⟨true, rest, .inl ⟨rfl, h⟩, trivial, rfl⟩
    · exact ⟨false, rest, .inr ⟨rfl, h⟩, trivial, rfl⟩

/-! ## Parsers that account for a missing value -/

/-- Where the parser gives no value, it has met an error. -/
def Honest (p : Parser α) : Prop := ∀ ts, (p.run ts).value = none → (p.run ts).errors ≠ []

theorem Honest.reads (hp : p.Honest) (h : (p.run ts).errors = []) :
    ∃ a rest, p.Reads ts a rest := by
  rcases hr : p.run ts with ⟨_ | a, errors, rest⟩
  · exact absurd h (hp ts (by rw [hr]))
  · rw [hr] at h
    cases h
    exact ⟨a, rest, hr⟩

theorem honest_pure : (pure a : Parser α).Honest := fun _ h => nomatch h

theorem honest_fail {e : ParseError} : (fail e : Parser α).Honest := fun _ _ h => nomatch h

theorem Honest.bind (hp : p.Honest) (hf : ∀ a, (f a).Honest) : (p >>= f).Honest := by
  intro ts hv he
  have hp := hp ts
  simp only [run, Bind.bind, Parser.bind] at hp hv he
  rcases hr : p ts with ⟨_ | a, errors, rest⟩
  · rw [hr] at hp he
    exact hp rfl he
  · rw [hr] at hv he
    exact hf a rest hv (List.append_eq_nil_iff.1 he).2

theorem honest_peek : peek.Honest := by rintro (_ | ⟨t, ts⟩) h <;> cases h

theorem honest_next : next.Honest := by rintro (_ | ⟨t, ts⟩) h <;> cases h

theorem honest_unexpected : (unexpected want : Parser α).Honest :=
  honest_peek.bind fun _ => honest_fail

theorem honest_recover : (recover p).Honest := fun _ h => nomatch h

/-- Recovery meets no error only where the parser gives a value. -/
theorem reads_recover {o : Option α} (hp : p.Honest) :
    (recover p).Reads ts o rest ↔ ∃ a, o = some a ∧ p.Reads ts a rest := by
  constructor
  · intro h
    simp only [Reads, run, recover, Parsed.mk.injEq, Option.some.injEq] at h
    obtain ⟨rfl, he, rfl⟩ := h
    obtain ⟨a, rest, hr⟩ := hp.reads he
    rw [show p ts = _ from hr]
    exact ⟨a, rfl, hr⟩
  · rintro ⟨a, rfl, h⟩
    rw [Reads, run] at h
    simp [Reads, run, recover, h]

end

end MonkeyLang.Parser
