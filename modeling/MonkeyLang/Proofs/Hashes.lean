/-
A hash literal makes a finite map, in which the last value for a key wins. The
entries that were inserted are looked up from the last one back, so a map is
known from its look-ups: it has one entry for each key there is, in the order of
the keys, and entries with different keys may come in any order.
-/
import Mathlib.Data.List.Dedup
import MonkeyLang.Proofs.Evaluation
import MonkeyLang.Value.Equal

namespace MonkeyLang

/-! ## The order of keys -/

/-- Integers by value, then false and true, then strings by code point. -/
def Key.Precedes : Key → Key → Prop
  | .integer m, .integer n => m.toInt < n.toInt
  | .integer _, .boolean _ | .integer _, .string _ | .boolean _, .string _ => True
  | .boolean a, .boolean b => a = false ∧ b = true
  | .string s, .string t => List.Lex (fun c d => c.toNat < d.toNat) s.toList t.toList
  | .boolean _, .integer _ | .string _, .integer _ | .string _, .boolean _ => False

theorem Key.precedes_iff {k l : Key} : k.Precedes l ↔ k.compare l = .lt := by
  cases k with
  | integer m =>
    cases l with
    | integer n => exact Int64.lt_iff_toInt_lt.symm.trans Std.compare_eq_lt.symm
    | _ => exact iff_of_true trivial rfl
  | boolean a =>
    cases l with
    | boolean b =>
      have hlt : Ord.compare a b = .lt ↔ a = false ∧ b = true := by cases a <;> cases b <;> decide
      exact hlt.symm
    | integer => exact iff_of_false id nofun
    | string => exact iff_of_true trivial rfl
  | string s =>
    cases l with
    | string t =>
      have hlt : Ord.compare s t = .lt ↔ s < t := compareOfLessAndEq_eq_lt
      exact hlt.symm
    | _ => exact iff_of_false id nofun

/-! ## Maps -/

namespace Entries

variable {α : Type} {es fs kvs : List (Key × α)} {k : Key} {a : α} {e : Key × α}

theorem get?_append (es fs : List (Key × α)) (k : Key) :
    get? (es ++ fs) k = (get? es k).or (get? fs k) := by
  rw [get?, List.find?_append, Option.map_or]
  rfl

theorem get?_eq_none_iff : get? es k = none ↔ ∀ e ∈ es, e.1 ≠ k := by
  simp [get?, List.find?_eq_none]

/-- Where no key comes twice, each entry is found. -/
theorem get?_eq_some_iff (h : (es.map (·.1)).Nodup) : get? es k = some a ↔ (k, a) ∈ es := by
  constructor
  · exact mem_of_get?
  · intro hmem
    obtain ⟨before, after, rfl⟩ := List.append_of_mem hmem
    rw [List.map_append, List.map_cons] at h
    have hbefore : get? before k = none := by
      refine get?_eq_none_iff.2 fun e he hk => ?_
      exact (List.nodup_append.1 h).2.2 e.1 (List.mem_map_of_mem he) k List.mem_cons_self hk
    rw [get?_append, hbefore, get?_cons, if_pos rfl, Option.none_or]

theorem mem_keys_iff : k ∈ es.map (·.1) ↔ (get? es k).isSome := by
  rw [Option.isSome_iff_ne_none, ne_eq, get?_eq_none_iff]
  simp

theorem Sorted.nodup (h : Sorted es) : (es.map (·.1)).Nodup := by
  refine List.pairwise_map.2 (h.imp fun {d e} hlt heq => ?_)
  rw [Key.compare_eq_iff.2 heq] at hlt
  cases hlt

/-- Maps with the same look-ups are the same. -/
theorem Sorted.ext (hes : Sorted es) (hfs : Sorted fs) (h : ∀ k, get? es k = get? fs k) :
    es = fs := by
  have hperm : es.Perm fs := by
    refine (List.perm_ext_iff_of_nodup hes.nodup.of_map hfs.nodup.of_map).2 fun e => ?_
    rw [← get?_eq_some_iff hes.nodup, ← get?_eq_some_iff hfs.nodup, h]
  refine hperm.eq_of_pairwise (fun d e _ _ hde hed => ?_) hes hfs
  rw [Key.compare_swap, hed] at hde
  cases hde

/-- Of the inserted entries, the last one with a key is found, and before them the entries of the
map. -/
theorem get?_foldl (kvs : List (Key × α)) (m : Entries α) (k : Key) :
    get? (kvs.foldl (fun m e => insert e.1 e.2 m) m) k = (get? kvs.reverse k).or (get? m k) := by
  induction kvs generalizing m with
  | nil => rfl
  | cons e kvs ih =>
    obtain ⟨l, a⟩ := e
    rw [List.foldl_cons, ih, List.reverse_cons, get?_append, Option.or_assoc]
    by_cases h : l = k
    · subst h
      rw [get?_insert_self, get?_cons, if_pos rfl, Option.some_or]
    · rw [get?_insert_other _ _ (Ne.symm h), get?_cons, if_neg h, get?_nil, Option.none_or]

theorem get?_ofList (kvs : List (Key × α)) (k : Key) :
    get? (ofList kvs) k = get? kvs.reverse k := by
  rw [ofList, get?_foldl, get?_nil, Option.or_none]

/-- The last entry with a key is the one that counts. -/
theorem get?_ofList_last {j : Nat} (hj : kvs[j]? = some (k, a))
    (hlast : ∀ i e, j < i → kvs[i]? = some e → e.1 ≠ k) : get? (ofList kvs) k = some a := by
  obtain ⟨hlt, hget⟩ := List.getElem?_eq_some_iff.1 hj
  have hsplit : kvs = kvs.take j ++ (k, a) :: kvs.drop (j + 1) := by
    rw [← hget, ← List.drop_eq_getElem_cons hlt, List.take_append_drop]
  have hafter : get? (kvs.drop (j + 1)).reverse k = none := by
    refine get?_eq_none_iff.2 fun e he => ?_
    obtain ⟨i, hi⟩ := List.mem_iff_getElem?.1 (List.mem_reverse.1 he)
    rw [List.getElem?_drop] at hi
    exact hlast _ e (by omega) hi
  rw [get?_ofList, hsplit, List.reverse_append, List.reverse_cons, List.append_assoc, get?_append,
    hafter, List.singleton_append, get?_cons, if_pos rfl, Option.none_or]

theorem get?_ofList_eq_none (h : ∀ e ∈ kvs, e.1 ≠ k) : get? (ofList kvs) k = none := by
  rw [get?_ofList]
  exact get?_eq_none_iff.2 fun e he => h e (List.mem_reverse.1 he)

theorem mem_of_mem_ofList (h : e ∈ ofList kvs) : e ∈ kvs := by
  have hget := (get?_eq_some_iff (sorted_ofList kvs).nodup).2 h
  rw [get?_ofList] at hget
  exact List.mem_reverse.1 (mem_of_get? hget)

theorem length_ofList (kvs : List (Key × α)) :
    (ofList kvs).length = (kvs.map (·.1)).dedup.length := by
  have hperm : ((ofList kvs).map (·.1)).Perm (kvs.map (·.1)).dedup := by
    refine (List.perm_ext_iff_of_nodup (sorted_ofList kvs).nodup (List.nodup_dedup _)).2 fun k => ?_
    rw [List.mem_dedup, mem_keys_iff, get?_ofList, ← mem_keys_iff, List.map_reverse,
      List.mem_reverse]
  rw [← hperm.length_eq, List.length_map]

/-- Entries with different keys make the same map in any order. -/
theorem ofList_perm (h : es.Perm fs) (hn : (es.map (·.1)).Nodup) : ofList es = ofList fs := by
  refine (sorted_ofList es).ext (sorted_ofList fs) fun k => Option.ext fun a => ?_
  have hes : (es.reverse.map (·.1)).Nodup := by rwa [List.map_reverse, List.nodup_reverse]
  have hfs : (fs.reverse.map (·.1)).Nodup := by
    rwa [List.map_reverse, List.nodup_reverse, ← (h.map _).nodup_iff]
  rw [get?_ofList, get?_ofList, get?_eq_some_iff hes, get?_eq_some_iff hfs, List.mem_reverse,
    List.mem_reverse, h.mem_iff]

end Entries

theorem Value.renderEntries_eq : ∀ es : List (Key × Value), Value.renderEntries es =
    ", ".intercalate (es.map fun e => e.1.toValue.inspect ++ ": " ++ e.2.inspect)
  | [] => rfl
  | [(k, v)] => by
    rw [Value.renderEntries_singleton, List.map_singleton, String.intercalate_singleton,
      String.append_assoc]
  | (k, v) :: e :: es => by
    rw [Value.renderEntries_cons_cons, Value.renderEntries_eq (e :: es)]
    simp only [List.map_cons, String.intercalate_cons_cons, String.append_assoc]

namespace Machine

/-! ## Literals -/

/-- Where expressions come to the collection and to the key, the member they index is the value. -/
def Indexes (collection key v : Value) : Prop :=
  ∀ limit f c k w u t, Evaluates limit c f w collection u → Evaluates limit k f u key t →
    Evaluates limit (.index c k) f w v t

/-- The entries are a map from the keys to the last values that come with them. -/
structure IsMapOf (entries : Entries Value) (kvs : List (Key × Value)) : Prop where
  last {j : Nat} {l k : Key} {v : Value} : kvs[j]? = some (l, v) → l.toValue.equal k.toValue →
    (∀ i e, j < i → kvs[i]? = some e → ¬e.1.toValue.equal k.toValue) →
    Indexes (.hash entries) k.toValue v
  absent {k : Key} : (∀ e ∈ kvs, ¬e.1.toValue.equal k.toValue) →
    Indexes (.hash entries) k.toValue .null
  length : entries.length = (kvs.map (·.1)).dedup.length
  /-- Each entry stands under the key of its own key value. -/
  filed : ∀ e ∈ entries, e ∈ kvs ∧ e.1.toValue.key? = some e.1
  increasing : entries.Pairwise fun d e => d.1.Precedes e.1
  display : (Value.hash entries).display =
    "\x7b" ++ ", ".intercalate (entries.map fun e => e.1.toValue.inspect ++ ": " ++ e.2.inspect) ++
      "\x7d"

variable {limit : Option Nat} {f : FrameId} {w u t : World} {es : List (Expr × Expr)}
  {kvs : List (Key × Value)} {entries : Entries Value} {key : Expr} {k : Key} {v : Value}

theorem EvaluatesEntries.not_isSignal (h : EvaluatesEntries limit f es w kvs u) :
    ∀ e ∈ kvs, ¬e.2.IsSignal := by
  induction h with
  | nil => exact List.forall_mem_nil _
  | cons _ hvalue _ ih => exact List.forall_mem_cons.2 ⟨hvalue.not_isSignal, ih⟩

theorem indexes_hash (h : (entries.get? k).getD .null = v) (hv : ¬v.IsSignal) :
    Indexes (.hash entries) k.toValue v := by
  intro limit f c e w u t hc hk
  have hm : (Value.hash entries).member k.toValue = .ok v := by
    simp only [Value.member, Key.key?_toValue, h]
  exact evaluates_index hc hk hm hv

theorem isMapOf_ofList (hkvs : ∀ e ∈ kvs, ¬e.2.IsSignal) : IsMapOf (Entries.ofList kvs) kvs where
  last {j l k v} hj hl hlast := by
    obtain rfl := Key.equal_toValue_iff.1 hl
    refine indexes_hash ?_ (hkvs _ (List.mem_of_getElem? hj))
    rw [Entries.get?_ofList_last hj fun i e hi he => mt Key.equal_toValue_iff.2 (hlast i e hi he)]
    rfl
  absent {k} h := by
    refine indexes_hash ?_ id
    rw [Entries.get?_ofList_eq_none fun e he => mt Key.equal_toValue_iff.2 (h e he)]
    rfl
  length := Entries.length_ofList kvs
  filed e he := ⟨Entries.mem_of_mem_ofList he, e.1.key?_toValue⟩
  increasing := (Entries.sorted_ofList kvs).imp Key.precedes_iff.2
  display := by
    rw [Value.display, Value.render, Value.renderEntries_eq]

/-- A key that cannot be one. The steps up to the error are the same whatever the value of the
entry and the entries after it are, since none of them is evaluated. -/
theorem EvaluatesEntries.exists_run_notHashable (h : EvaluatesEntries limit f es w kvs u)
    (hkey : Evaluates limit key f u v t) (hv : v.key? = none) :
    ∃ n, ∀ value after, run limit n ⟨.expr (.hash (es ++ (key, value) :: after)) f, [], w⟩ =
      some (.error (.fault (.notHashable v.tag)), t) := by
  obtain ⟨n, hn⟩ := h.exists_after []
  obtain ⟨i, hi⟩ := hkey.exists_after
  refine ⟨1 + (n + (i + 1)), fun value after' => run_eq_some.2 ?_⟩
  have hbegin : after limit 1 ⟨.expr (.hash (es ++ (key, value) :: after')) f, [], w⟩ =
      Machine.entries [] (es ++ (key, value) :: after') f [] w := rfl
  rw [after_add, hbegin, after_add, hn, Machine.entries, after_add, hi]
  simp only [after, step, resume, Option.getD_some, hv]
  rfl

/-- A hash literal whose keys and values come to these is the map in which the last value for a key
wins; with different keys their order does not matter. The first key that cannot be one is an error,
and nothing behind it is evaluated. -/
theorem hash_keeps_last (h : EvaluatesEntries limit f es w kvs u) :
    (∃ entries, Evaluates limit (.hash es) f w (.hash entries) u ∧ IsMapOf entries kvs ∧
      ∀ limit' f' es' w' kvs' u', EvaluatesEntries limit' f' es' w' kvs' u' → kvs.Perm kvs' →
        (kvs.map (·.1)).Nodup →
        ∃ entries', Evaluates limit' (.hash es') f' w' (.hash entries') u' ∧
          (Value.hash entries).equal (.hash entries') ∧
          (Value.hash entries).display = (Value.hash entries').display) ∧
    ∀ key v t, Evaluates limit key f u v t → v.key? = none →
      ∃ e n, Fault.message e = "unusable as hash key: " ++ v.tag.name ∧
        ∀ value after, run limit n ⟨.expr (.hash (es ++ (key, value) :: after)) f, [], w⟩ =
          some (.error (.fault e), t) := by
  refine ⟨⟨_, evaluates_hash h, isMapOf_ofList h.not_isSignal, ?_⟩, ?_⟩
  · intro limit' f' es' w' kvs' u' h' hperm hn
    rw [Entries.ofList_perm hperm hn]
    exact ⟨_, evaluates_hash h', Value.equal_self _, rfl⟩
  · intro key v t hkey hv
    obtain ⟨n, hn⟩ := h.exists_run_notHashable hkey hv
    refine ⟨.notHashable v.tag, n, ?_, hn⟩
    simp [Fault.message, String.join]

/-- Two of the keys are the same. -/
def repeated : List (Expr × Expr) :=
  [(.string "b", .integer 1), (.integer 2, .integer 2), (.string "b", .integer 3),
    (.boolean false, .integer 4)]

/-- The last value counts; an array cannot be a key, and then nothing is printed. -/
theorem hash_keeps_last_repeated :
    let w := World.fresh fun _ => 0
    let outcry : Expr := .call (.ident "puts") [.string "evaluated"]
    (∃ entries, Evaluates none (.hash repeated) 0 w (.hash entries) w ∧ entries.length = 3 ∧
      Evaluates none (.index (.hash repeated) (.string "b")) 0 w (.integer 3) w) ∧
    ∃ e n, Fault.message e = "unusable as hash key: ARRAY" ∧
      run none n ⟨.expr (.hash (repeated ++ [(.array [], outcry)])) 0, [], w⟩ =
        some (.error (.fault e), w) := by
  intro w outcry
  have hentries : EvaluatesEntries none 0 repeated w
      [(.string "b", .integer 1), (.integer 2, .integer 2), (.string "b", .integer 3),
        (.boolean false, .integer 4)] w :=
    .cons (k := .string "b") ⟨1, rfl⟩ ⟨1, rfl⟩ (.cons (k := .integer 2) ⟨1, rfl⟩ ⟨1, rfl⟩
      (.cons (k := .string "b") ⟨1, rfl⟩ ⟨1, rfl⟩ (.cons (k := .boolean false) ⟨1, rfl⟩ ⟨1, rfl⟩
        .nil)))
  obtain ⟨⟨entries, he, hmap, -⟩, hbad⟩ := hash_keeps_last hentries
  obtain ⟨e, n, hmessage, hrun⟩ := hbad (.array []) (.array []) w (evaluates_array .nil) rfl
  have hindexes : Indexes (.hash entries) (Key.string "b").toValue (.integer 3) := by
    refine hmap.last (j := 2) rfl (Key.equal_toValue_iff.2 rfl) fun i e hi he heq => ?_
    obtain rfl : i = 3 := by
      have hlt := (List.getElem?_eq_some_iff.1 he).1
      simp only [List.length_cons, List.length_nil] at hlt
      omega
    cases he
    exact absurd (Key.equal_toValue_iff.1 heq) (by decide)
  exact ⟨⟨entries, he, hmap.length.trans (by decide), hindexes _ _ _ _ _ _ _ he ⟨1, rfl⟩⟩,
    e, n, hmessage, hrun outcry []⟩

end Machine

end MonkeyLang
