/-
Values read back as source. The text of a value that is made of integers,
booleans, strings, arrays and hashes spells an expression that comes to this
value wherever it is evaluated, because no string of a program holds a quote and
hashes are in order. Only the least integer has no literal: minus stands before
a number that is too large.
-/
import Mathlib.Data.List.Forall2
import MonkeyLang.Proofs.Evaluation
import MonkeyLang.Proofs.RoundTrip
import MonkeyLang.Proofs.Series

namespace MonkeyLang

open Grammar

/-! ## Expressions that come to a value -/

/-- Wherever the expression is evaluated, it comes to the value, and nothing changes. -/
def Expr.Yields (e : Expr) (v : Value) : Prop :=
  ∀ limit f k w, Machine.Leads limit ⟨.expr e f, k, w⟩ ⟨.done (some v), k, w⟩

namespace Machine

variable {limit : Option Nat} {f : FrameId} {k : List Pending} {w : World}

theorem evaluates_of_yields {e : Expr} {v : Value} (h : e.Yields v) : Evaluates limit e f w v w :=
  ends_done (h limit f [] w)

theorem evaluatesAll_of_yields {es : List Expr} {vs : List Value}
    (h : List.Forall₂ Expr.Yields es vs) : EvaluatesAll limit f es w vs w := by
  induction h with
  | nil => exact .nil
  | cons he _ ih => exact .cons (evaluates_of_yields he) ih

theorem evaluatesEntries_of_yields {es : List (Expr × Expr)} {kvs : Entries Value}
    (h : List.Forall₂ (fun e kv => e.1.Yields kv.1.toValue ∧ e.2.Yields kv.2) es kvs) :
    EvaluatesEntries limit f es w kvs w := by
  induction h with
  | nil => exact .nil
  | cons he _ ih => exact .cons (evaluates_of_yields he.1) (evaluates_of_yields he.2) ih

end Machine

theorem yields_integer (n : Int64) : (Expr.integer n).Yields (.integer n) :=
  fun _ _ _ _ => ⟨1, rfl⟩

theorem yields_negative (n : Int64) :
    (Expr.unary .negate (.integer n)).Yields (.integer (-n)) :=
  fun _ _ _ _ => ⟨3, rfl⟩

theorem yields_boolean (b : Bool) : (Expr.boolean b).Yields (.boolean b) :=
  fun _ _ _ _ => ⟨1, rfl⟩

theorem yields_string (s : String) : (Expr.string s).Yields (.string s) :=
  fun _ _ _ _ => ⟨1, rfl⟩

theorem yields_array {es : List Expr} {vs : List Value} (h : List.Forall₂ Expr.Yields es vs) :
    (Expr.array es).Yields (.array vs) :=
  fun _ _ k _ => (Machine.evaluates_array (Machine.evaluatesAll_of_yields h)).leads k

theorem yields_hash {es : List (Expr × Expr)} {kvs : Entries Value}
    (h : List.Forall₂ (fun e kv => e.1.Yields kv.1.toValue ∧ e.2.Yields kv.2) es kvs)
    (hs : kvs.Sorted) : (Expr.hash es).Yields (.hash kvs) := by
  intro limit f k w
  have heval : Machine.Evaluates limit (.hash es) f w (.hash (Entries.ofList kvs)) w :=
    Machine.evaluates_hash (Machine.evaluatesEntries_of_yields h)
  -- The entries stand in the order of their keys, so each goes to the end.
  rw [hs.ofList_eq] at heval
  exact heval.leads k

/-! ## The texts of values -/

/-- One of the values that are written as literals, apart from what is within it. -/
def Value.Literate : Value → Prop
  | .integer _ | .boolean _ | .array _ => True
  | .string s => '"' ∉ s.toList
  | .hash es => Entries.Sorted es
  | .null | .function _ | .builtin _ | .signal _ => False

/-- The smallest integer. -/
def Value.least : Value := .integer Int64.minValue

/-- The text spells an expression that comes to the value. -/
def Value.Written (v : Value) : Prop := ∃ e, Spelled (.expr 5) v.inspect e ∧ e.Yields v

theorem toInt_neg_of_ne {n : Int64} (hn : n ≠ Int64.minValue) : (-n).toInt = -n.toInt := by
  have hne : n.toInt ≠ -2 ^ 63 := fun h => hn (Int64.toInt_inj.1 (h.trans Int64.toInt_minValue.symm))
  have hle := n.le_toInt
  have hlt := n.toInt_lt
  rw [Int64.toInt_neg]
  exact Int.bmod_eq_of_le (by omega) (by omega)

theorem toString_neg {i : Int} (h : i < 0) : toString i = "-" ++ toString (-i) := by
  obtain ⟨n, rfl⟩ := Int.eq_negSucc_of_lt_zero h
  rfl

theorem written_integer {n : Int64} (hn : n ≠ Int64.minValue) : (Value.integer n).Written := by
  by_cases h : 0 ≤ n.toInt
  · exact ⟨.integer n, (spelled_integer h).loosen (by decide), yields_integer n⟩
  · -- Literals have no sign: a negative integer is written as minus and its opposite.
    have hneg : (-n).toInt = -n.toInt := toInt_neg_of_ne hn
    have htext : (Value.integer n).inspect = UnaryOp.symbol .negate ++ toString (-n).toInt := by
      rw [hneg]
      exact toString_neg (by omega)
    refine ⟨.unary .negate (.integer (-n)), ?_, ?_⟩
    · rw [htext]
      exact spelled_unary .negate (spelled_integer (by omega))
    · have hy := yields_negative (-n)
      rwa [Int64.neg_neg] at hy

theorem Key.written {k : Key} (hk : k.toValue.Literate) (hne : k.toValue ≠ .least) :
    k.toValue.Written := by
  cases k with
  | integer n => exact written_integer fun h => hne (congrArg Value.integer h)
  | boolean b => exact ⟨_, (spelled_boolean b).loosen (by decide), yields_boolean b⟩
  | string s => exact ⟨_, (spelled_string hk).loosen (by decide), yields_string s⟩

mutual

theorem Value.written : ∀ v : Value, (∀ u ∈ v.within, u.Literate ∧ u ≠ .least) → v.Written
  | .null, h => (h _ List.mem_cons_self).1.elim
  | .integer n, h =>
    Key.written (k := .integer n) (h _ List.mem_cons_self).1 (h _ List.mem_cons_self).2
  | .boolean b, h =>
    Key.written (k := .boolean b) (h _ List.mem_cons_self).1 (h _ List.mem_cons_self).2
  | .string s, h =>
    Key.written (k := .string s) (h _ List.mem_cons_self).1 (h _ List.mem_cons_self).2
  | .array vs, h => by
    obtain ⟨es, hs, hy⟩ := Value.writtenList vs (Value.forall_within_array.1 h).2
    exact ⟨.array es, (spelled_array hs).loosen (by decide), yields_array hy⟩
  | .hash kvs, h => by
    obtain ⟨⟨hsorted, -⟩, h⟩ := Value.forall_within_hash.1 h
    obtain ⟨es, hs, hy⟩ := Value.writtenEntries kvs h
    exact ⟨.hash es, (spelled_hash hs).loosen (by decide), yields_hash hy hsorted⟩
  | .function _, h => (h _ List.mem_cons_self).1.elim
  | .builtin _, h => (h _ List.mem_cons_self).1.elim
  | .signal _, h => (h _ List.mem_cons_self).1.elim

theorem Value.writtenList : ∀ vs : List Value,
    (∀ v ∈ vs, ∀ u ∈ v.within, u.Literate ∧ u ≠ .least) →
    ∃ es, Spelled (.list (.expr 0)) (Value.renderList vs) es ∧ List.Forall₂ Expr.Yields es vs
  | [], _ => ⟨[], spelled_none, .nil⟩
  | [v], h => by
    obtain ⟨e, hs, hy⟩ := v.written (h v List.mem_cons_self)
    refine ⟨[e], ?_, .cons hy .nil⟩
    rw [Value.renderList_singleton]
    exact spelled_last (hs.loosen (Nat.zero_le 5))
  | v :: v' :: vs, h => by
    obtain ⟨hv, hvs⟩ := List.forall_mem_cons.1 h
    obtain ⟨e, hs, hy⟩ := v.written hv
    obtain ⟨es, hss, hys⟩ := Value.writtenList (v' :: vs) hvs
    refine ⟨e :: es, ?_, .cons hy hys⟩
    rw [Value.renderList_cons_cons]
    exact spelled_more (hs.loosen (Nat.zero_le 5)) hss

theorem Value.writtenEntries : ∀ kvs : List (Key × Value),
    (∀ kv ∈ kvs, (kv.1.toValue.Literate ∧ kv.1.toValue ≠ .least) ∧
      ∀ u ∈ kv.2.within, u.Literate ∧ u ≠ .least) →
    ∃ es, Spelled (.list .entry) (Value.renderEntries kvs) es ∧
      List.Forall₂ (fun e kv => e.1.Yields kv.1.toValue ∧ e.2.Yields kv.2) es kvs
  | [], _ => ⟨[], spelled_none, .nil⟩
  | [(k, v)], h => by
    obtain ⟨hk, hv⟩ := h (k, v) List.mem_cons_self
    obtain ⟨d, hsk, hyk⟩ := Key.written hk.1 hk.2
    obtain ⟨e, hs, hy⟩ := v.written hv
    refine ⟨[(d, e)], ?_, .cons ⟨hyk, hy⟩ .nil⟩
    rw [Value.renderEntries_singleton]
    exact spelled_last (spelled_entry hsk hs)
  | (k, v) :: kv :: kvs, h => by
    obtain ⟨⟨hk, hv⟩, hkvs⟩ := List.forall_mem_cons.1 h
    obtain ⟨d, hsk, hyk⟩ := Key.written hk.1 hk.2
    obtain ⟨e, hs, hy⟩ := v.written hv
    obtain ⟨es, hss, hys⟩ := Value.writtenEntries (kv :: kvs) hkvs
    refine ⟨(d, e) :: es, ?_, .cons ⟨hyk, hy⟩ hys⟩
    rw [Value.renderEntries_cons_cons]
    exact spelled_more (spelled_entry hsk hs) hss

end

/-! ## The least integer -/

/-- The number that stands behind minus in the text of the least integer. -/
def overflow : Token := ⟨.int, toString 0x8000000000000000⟩

/-- The text has tokens, and if the least integer is in it, the number that is too large is one of
them. It is a claim about every text, since what stands beside the least integer has to be lexed
as well. -/
def Lexes (s : String) (least : Prop) : Prop := ∃ ts, Spells s ts ∧ (least → overflow ∈ ts)

section

variable {s t c w : String} {least least' : Prop} {k : Kind} {v : Value}

theorem Lexes.imp (h : Lexes s least) (hl : least' → least) : Lexes s least' := by
  obtain ⟨ts, hs, ht⟩ := h
  exact ⟨ts, hs, fun h => ht (hl h)⟩

/-- Two texts with a comma or a colon between them. -/
theorem lexes_join (h : Lexes s least) (hc : Closes c [⟨k, w⟩]) (hb : Breaks c)
    (h' : Lexes t least') : Lexes (s ++ (c ++ t)) (least ∨ least') := by
  obtain ⟨ts, hs, ht⟩ := h
  obtain ⟨us, hs', hu⟩ := h'
  refine ⟨_, hs.append (hc.append hs') (hb.append t), fun hl => ?_⟩
  rcases hl with hl | hl
  · exact List.mem_append_left _ (ht hl)
  · exact List.mem_append_right _ (List.mem_cons_of_mem _ (hu hl))

/-- A text between two delimiters. -/
theorem lexes_enclosed {a b : Token} (hc : ∀ {ts}, Spells s ts → Closes t (a :: ts ++ [b]))
    (h : Lexes s least) : Lexes t least := by
  obtain ⟨ts, hs, ht⟩ := h
  refine ⟨_, (hc hs).spells, fun hl => ?_⟩
  exact List.mem_append_left _ (List.mem_cons_of_mem _ (ht hl))

theorem Value.Written.lexes (h : v.Written) : Lexes v.inspect False := by
  obtain ⟨e, ⟨ts, -, hs⟩, -⟩ := h
  exact ⟨ts, hs, False.elim⟩

theorem inspect_least : Value.least.inspect = "-" ++ overflow.text := by
  have htext : Value.least.inspect = toString Int64.minValue.toInt := rfl
  have hpow : (2 : Int) ^ 63 = (0x8000000000000000 : Nat) := rfl
  rw [htext, Int64.toInt_minValue, toString_neg (by decide), Int.neg_neg, hpow]
  rfl

theorem lexes_least : Lexes Value.least.inspect True := by
  have hminus : Closes "-" [⟨.minus, "-"⟩] := closes_delimiter rfl rfl rfl
  refine ⟨[⟨.minus, "-"⟩, overflow], ?_, fun _ => by simp⟩
  rw [inspect_least]
  exact hminus.append (spells_number _)

theorem Key.lexes {k : Key} (hk : k.toValue.Literate) :
    Lexes k.toValue.inspect (.least = k.toValue) := by
  by_cases hne : k.toValue = .least
  · exact hne ▸ lexes_least.imp fun _ => trivial
  · exact (Key.written hk hne).lexes.imp fun h => hne h.symm

end

mutual

theorem Value.lexes : ∀ v : Value, (∀ u ∈ v.within, u.Literate) →
    Lexes v.inspect (.least ∈ v.within)
  | .null, h => (h _ List.mem_cons_self).elim
  | .integer n, _ => (Key.lexes (k := .integer n) trivial).imp List.mem_singleton.1
  | .boolean b, _ => (Key.lexes (k := .boolean b) trivial).imp List.mem_singleton.1
  | .string s, h =>
    (Key.lexes (k := .string s) (h _ List.mem_cons_self)).imp List.mem_singleton.1
  | .array vs, h =>
    (lexes_enclosed closes_brackets (Value.lexesList vs (Value.forall_within_array.1 h).2)).imp
      fun hm => (List.mem_cons.1 hm).resolve_left nofun
  | .hash kvs, h =>
    (lexes_enclosed closes_braces (Value.lexesEntries kvs (Value.forall_within_hash.1 h).2)).imp
      fun hm => (List.mem_cons.1 hm).resolve_left nofun
  | .function _, h => (h _ List.mem_cons_self).elim
  | .builtin _, h => (h _ List.mem_cons_self).elim
  | .signal _, h => (h _ List.mem_cons_self).elim

theorem Value.lexesList : ∀ vs : List Value, (∀ v ∈ vs, ∀ u ∈ v.within, u.Literate) →
    Lexes (Value.renderList vs) (.least ∈ Value.withinList vs)
  | [], _ => ⟨[], fun _ _ => rfl, nofun⟩
  | [v], h => by
    rw [Value.renderList_singleton]
    exact (v.lexes (h v List.mem_cons_self)).imp (by simp [Value.withinList])
  | v :: v' :: vs, h => by
    obtain ⟨hv, hvs⟩ := List.forall_mem_cons.1 h
    rw [Value.renderList_cons_cons]
    exact (lexes_join (v.lexes hv) closes_comma (breaks (by decide))
      (Value.lexesList (v' :: vs) hvs)).imp List.mem_append.1

theorem Value.lexesEntries : ∀ kvs : List (Key × Value),
    (∀ kv ∈ kvs, kv.1.toValue.Literate ∧ ∀ u ∈ kv.2.within, u.Literate) →
    Lexes (Value.renderEntries kvs) (.least ∈ Value.withinEntries kvs)
  | [], _ => ⟨[], fun _ _ => rfl, nofun⟩
  | [(k, v)], h => by
    obtain ⟨hk, hv⟩ := h (k, v) List.mem_cons_self
    rw [Value.renderEntries_singleton]
    exact (lexes_join (Key.lexes hk) closes_colon (breaks (by decide)) (v.lexes hv)).imp
      (by simp [Value.withinEntries])
  | (k, v) :: kv :: kvs, h => by
    obtain ⟨⟨hk, hv⟩, hkvs⟩ := List.forall_mem_cons.1 h
    have hentry := lexes_join (Key.lexes hk) closes_colon (breaks (by decide)) (v.lexes hv)
    rw [Value.renderEntries_cons_cons]
    refine (lexes_join hentry closes_comma (breaks (by decide))
      (Value.lexesEntries (kv :: kvs) hkvs)).imp fun hm => ?_
    rw [or_assoc, ← List.mem_append]
    exact List.mem_cons.1 hm

end

/-- No integer of a program is too large. -/
theorem le_of_derives {p : Phrase} {ts : List Token} {a : p.Tree} (h : Derives p ts a) :
    ∀ t ∈ ts, t.kind = .int → decimal t.text ≤ 0x7FFFFFFFFFFFFFFF := by
  induction h with
  | binary op =>
    have hop : op.kind ≠ .int := by cases op <;> decide
    simp_all [or_imp]
  | unary op =>
    have hop : op.kind ≠ .int := by cases op <;> decide
    simp_all [or_imp]
  | _ => simp_all [or_imp]

/-- A text with the least integer in it cannot be read. -/
theorem Lexes.errors_ne_nil {s : String} (h : Lexes s True) : (parse s).errors ≠ [] := by
  intro he
  obtain ⟨ts, hs, ht⟩ := h
  have hd := derives_of_parse he
  rw [hs.tokens_eq] at hd
  have hle : decimal overflow.text ≤ 0x7FFFFFFFFFFFFFFF := le_of_derives hd _ (ht trivial) rfl
  rw [show decimal overflow.text = 0x8000000000000000 from decimal_toString _] at hle
  exact absurd hle (by decide)

/-! ## Strings without quotes -/

theorem mem_append_imp {α β : Type} {a : α} {b : β} {as as' : List α} {bs bs' : List β}
    (h : a ∈ as → b ∈ bs) (h' : a ∈ as' → b ∈ bs') (ha : a ∈ as ++ as') : b ∈ bs ++ bs' :=
  List.mem_append.2 ((List.mem_append.1 ha).imp h h')

mutual

/-- The strings in code are parts of it. -/
theorem Expr.mem_parts {s : String} : ∀ e : Expr, .string s ∈ e.within → .string s ∈ e.parts
  | .ident _, h | .integer _, h | .boolean _, h => nomatch List.mem_singleton.1 h
  | .string t, h => by simpa [Expr.within, Expr.parts] using h
  | .array es, h => Expr.mem_partsList es ((List.mem_cons.1 h).resolve_left nofun)
  | .hash es, h => Expr.mem_partsEntries es ((List.mem_cons.1 h).resolve_left nofun)
  | .unary _ e, h => e.mem_parts ((List.mem_cons.1 h).resolve_left nofun)
  | .binary l _ r, h =>
    mem_append_imp l.mem_parts r.mem_parts ((List.mem_cons.1 h).resolve_left nofun)
  | .assign x e, h =>
    List.mem_cons_of_mem _ (e.mem_parts ((List.mem_cons.1 h).resolve_left nofun))
  | .ifElse c b d, h =>
    mem_append_imp (mem_append_imp c.mem_parts (Stmt.mem_block b)) (Stmt.mem_partsElse d)
      ((List.mem_cons.1 h).resolve_left nofun)
  | .forIn x e b, h =>
    mem_append_imp (fun h => List.mem_cons_of_mem _ (e.mem_parts h)) (Stmt.mem_block b)
      ((List.mem_cons.1 h).resolve_left nofun)
  | .whileDo c b, h =>
    mem_append_imp c.mem_parts (Stmt.mem_block b) ((List.mem_cons.1 h).resolve_left nofun)
  | .function xs b, h =>
    List.mem_append_right _ (Stmt.mem_block b ((List.mem_cons.1 h).resolve_left nofun))
  | .call f es, h =>
    mem_append_imp f.mem_parts (Expr.mem_partsList es) ((List.mem_cons.1 h).resolve_left nofun)
  | .index c k, h =>
    mem_append_imp c.mem_parts k.mem_parts ((List.mem_cons.1 h).resolve_left nofun)

theorem Expr.mem_partsList {s : String} : ∀ es : List Expr,
    .string s ∈ Expr.withinList es → .string s ∈ Expr.partsList es
  | [], h => nomatch h
  | e :: es, h => mem_append_imp e.mem_parts (Expr.mem_partsList es) h

theorem Expr.mem_partsEntries {s : String} : ∀ es : List (Expr × Expr),
    .string s ∈ Expr.withinEntries es → .string s ∈ Expr.partsEntries es
  | [], h => nomatch h
  | (k, v) :: es, h =>
    mem_append_imp (mem_append_imp k.mem_parts v.mem_parts) (Expr.mem_partsEntries es) h

theorem Stmt.mem_parts {s : String} : ∀ a : Stmt, .string s ∈ a.within → .string s ∈ a.parts
  | .define _ e, h => List.mem_cons_of_mem _ (e.mem_parts h)
  | .ret e, h | .expr e, h => e.mem_parts h
  | .brk, h | .cont, h => nomatch h

theorem Stmt.mem_partsList {s : String} : ∀ b : List Stmt,
    .string s ∈ Stmt.withinList b → .string s ∈ Stmt.partsList b
  | [], h => nomatch h
  | a :: b, h => mem_append_imp a.mem_parts (Stmt.mem_partsList b) h

theorem Stmt.mem_block {s : String} : ∀ b : List Stmt,
    .string s ∈ Stmt.withinList b → .string s ∈ Part.stmts b :: Stmt.partsList b
  | b, h => List.mem_cons_of_mem _ (Stmt.mem_partsList b h)

theorem Stmt.mem_partsElse {s : String} : ∀ d : Option (List Stmt),
    .string s ∈ Stmt.withinElse d → .string s ∈ Stmt.partsElse d
  | none, h => nomatch h
  | some b, h => Stmt.mem_block b h

end

theorem quote_not_mem_digits (n : Nat) : '"' ∉ (toString n).toList :=
  fun h => absurd (isDigit_of_mem_toString h) (by decide)

theorem quote_not_mem_integer (i : Int) : '"' ∉ (toString i).toList := by
  cases i with
  | ofNat n => exact quote_not_mem_digits n
  | negSucc n =>
    have htext : (toString (Int.negSucc n)).toList = '-' :: (toString (n + 1)).toList :=
      String.toList_append
    rw [htext, List.mem_cons, not_or]
    exact ⟨by decide, quote_not_mem_digits (n + 1)⟩

/-- No string holds a quote, and hashes are in order. -/
def Law.literate : Law :=
  { Law.free with
    code := fun e => ∀ s, e = .string s → '"' ∉ s.toList
    text := fun s => '"' ∉ s.toList
    hash := Entries.Sorted
    text_literal := fun h => h _ rfl
    text_append := fun hs ht => by
      rw [String.toList_append, List.mem_append, not_or]
      exact ⟨hs, ht⟩
    text_integer := fun n => quote_not_mem_integer n.toInt
    text_boolean := fun b => by cases b <;> decide
    hash_nil := .nil
    hash_insert := fun k v h => h.insert k v
    builtin_named := fun _ _ => trivial }

/-! ## Sessions -/

/-- The value is made of integers, booleans, strings, arrays and hashes only. -/
def Value.IsData (v : Value) : Prop :=
  ∀ u ∈ v.within, u.tag ∈ [Tag.integer, .boolean, .string, .array, .hash]

theorem Value.IsData.literate {v : Value} {n : Nat} (h : v.IsData) (hv : v.Obeys .literate n) :
    ∀ u ∈ v.within, u.Literate := by
  intro u hu
  have htag := h u hu
  have hadmits := hv u hu
  cases u with
  | integer | boolean | array => trivial
  | string | hash => exact hadmits
  | signal s => cases s <;> simp [Value.tag, Signal.tag] at htag
  | null | function | builtin => simp [Value.tag] at htag

theorem Value.not_isData_fault (e : Fault) : ¬(Value.signal (.fault e)).IsData := by
  intro h
  have htag := h _ List.mem_cons_self
  simp [Value.tag, Signal.tag] at htag

theorem Value.Obeys.quote_not_mem {v : Value} {n : Nat} (hv : v.Obeys .literate n) (x : String)
    (hx : .string x ∈ v.within) : '"' ∉ x.toList :=
  hv _ hx

/-- What is read without an error has no quotes in its strings. -/
theorem obeys_parse {source : String} (h : (parse source).errors = []) :
    Block.Obeys .literate (parse source).program := by
  have hd := derives_of_parse h
  have hlegible := legible_of_derives hd (clean_of_derives hd)
  refine Block.obeys_iff.1 fun e he s hs => ?_
  subst hs
  exact hlegible _ (Stmt.mem_block _ he)

namespace Session

variable {n : Nat} {source : String} {s t : Session} {a : Answer}

/-- A run of a source keeps the law, and its value obeys it, unless it is an error. -/
theorem Obeys.of_source (hs : s.Obeys .literate) (h : s.run n source = some (a, t)) :
    t.Obeys .literate ∧
      ∀ v, a = .value v → (∃ k, v.Obeys .literate k) ∨ ∃ e, v = .signal (.fault e) := by
  dsimp only [Session.run] at h
  split at h
  · rename_i he
    obtain ⟨⟨v, t'⟩, hr, heq⟩ := Option.map_eq_some_iff.1 h
    cases heq
    obtain ⟨ht, hv⟩ := hs.of_run (obeys_parse (List.isEmpty_iff.1 he)) hr
    refine ⟨ht, fun u hu => ?_⟩
    cases hu
    exact hv.imp (fun hv => ⟨_, hv⟩) id
  · cases h
    exact ⟨hs, nofun⟩

/-- The source of an expression gives the value that the expression comes to. -/
theorem run_of_yields {k : Nat} {e : Expr} {v : Value} (hs : Spelled (.expr k) source e)
    (hy : e.Yields v) (t : Session) : ∃ n, t.run n source = some (.value v, t) := by
  obtain ⟨ts, hd, htext⟩ := spelled_open (spelled_eval hs)
  have hparse : parse source = ⟨[.expr e], []⟩ := parse_of_derives (htext.tokens_eq ▸ hd)
  have hends : Machine.Ends (some callLimit) (.load [.expr e] t.globals t.world) (.ok (some v))
      t.world := (Machine.evaluates_of_yields hy).block
  exact run_of_ends (congrArg Reading.program hparse) (congrArg Reading.errors hparse) hends

/-- Values that are data are read back from their text, in any session, to the same value, and
nothing changes by it. Only where the least integer is in them, the text is rejected. No string has
a quote in it, neither in a value nor in a variable. -/
theorem data_reads_back {n : Nat} {draws : Nat → Nat} {sources : List String}
    {answers : List Answer} {s : Session}
    (h : runAll (fun source s => s.run n source) sources (fresh draws) = some (answers, s)) :
    (∀ (f : FrameId) (frame : Frame), s.world.store.frames[f]? = some frame →
      ∀ slot ∈ frame.slots, ∀ x, .string x ∈ slot.2.within → '"' ∉ x.toList) ∧
    ∀ v, .value v ∈ answers →
      (∀ x, .string x ∈ v.within → '"' ∉ x.toList) ∧
      (v.IsData → .least ∉ v.within →
        ∀ t : Session, ∃ k, t.run k v.inspect = some (.value v, t)) ∧
      (v.IsData → .least ∈ v.within →
        ∀ t : Session, ∃ errors, errors ≠ [] ∧
          ∀ k, t.run k v.inspect = some (.rejected errors, t)) := by
  obtain ⟨hs, hall⟩ := runAll_keeps (I := Session.Obeys .literate)
    (fun _ _ _ _ _ hs hr => hs.of_source hr) (obeys_fresh rfl draws) h
  refine ⟨fun f frame hf slot hslot => ?_, fun v hv => ?_⟩
  · exact (hs.world.slot trivial hf hslot).quote_not_mem
  · rcases hall _ hv v rfl with ⟨k, hv⟩ | ⟨e, rfl⟩
    · refine ⟨hv.quote_not_mem, fun hdata hleast t => ?_, fun hdata hleast t => ?_⟩
      · have hall : ∀ u ∈ v.within, u.Literate ∧ u ≠ .least :=
          fun u hu => ⟨hdata.literate hv u hu, fun he => hleast (he ▸ hu)⟩
        obtain ⟨e, hs, hy⟩ := v.written hall
        exact run_of_yields hs hy t
      · have herrors := ((v.lexes (hdata.literate hv)).imp fun _ => hleast).errors_ne_nil
        refine ⟨_, herrors, fun k => ?_⟩
        simp only [Session.run, List.isEmpty_iff, herrors, if_false]
    · have hdata := Value.not_isData_fault e
      exact ⟨fun x hx => Value.noConfusion (List.mem_singleton.1 hx), fun h => absurd h hdata,
        fun h => absurd h hdata⟩

/-- A hash with a negative integer and a string that is put together. -/
def ledger : Program :=
  [.expr (.hash [(.string "k", .array [.unary .negate (.integer 2),
    .binary (.string "a") .add (.string "b")])])]

/-- An array with the least integer, which is less by one than all that have literals. -/
def abyss : Program :=
  [.expr (.array [.binary (.unary .negate (.integer Int64.maxValue)) .subtract (.integer 1)])]

theorem data_reads_back_ledger :
    let v : Value := .hash [(.string "k", .array [.integer (-2), .string "ab"])]
    let u : Value := .array [.least]
    let s := fresh fun _ => 0
    runAll (fun source s => s.run 40 source) [ledger.print, abyss.print] s =
        some ([.value v, .value u], s) ∧
      (∃ k, s.run k v.inspect = some (.value v, s)) ∧
      ∃ errors, errors ≠ [] ∧ ∀ k, s.run k u.inspect = some (.rejected errors, s) := by
  intro v u s
  have hrun {p : Program} (hp : p.Printable) :
      s.run 40 p.print = (s.runProgram 40 p).map fun r => (.value r.1, r.2) := by
    have hparse : parse p.print = ⟨p, []⟩ := parse_of_derives (derives_print hp)
    simp only [Session.run, hparse]
    rfl
  have hledger : s.run 40 ledger.print = some (.value v, s) := hrun (by decide)
  have habyss : s.run 40 abyss.print = some (.value u, s) := hrun (by decide)
  have hall : runAll (fun source s => s.run 40 source) [ledger.print, abyss.print] s =
      some ([.value v, .value u], s) := by
    rw [runAll_cons hledger, runAll_cons habyss]
    rfl
  obtain ⟨-, hreads⟩ := data_reads_back hall
  obtain ⟨-, hread, -⟩ := hreads v List.mem_cons_self
  obtain ⟨-, -, hreject⟩ := hreads u (List.mem_cons_of_mem _ List.mem_cons_self)
  refine ⟨hall, hread ?_ ?_ s, hreject ?_ ?_ s⟩
  · simp [v, Value.IsData, Value.within, Value.withinEntries, Value.withinList, Value.tag,
      Key.toValue]
  · simp [v, Value.least, Value.within, Value.withinEntries, Value.withinList, Key.toValue]
  · simp [u, Value.least, Value.IsData, Value.within, Value.withinList, Value.tag]
  · simp [u, Value.least, Value.within, Value.withinList]

end Session

end MonkeyLang
