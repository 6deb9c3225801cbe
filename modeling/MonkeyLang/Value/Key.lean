/-
The keys of hashes and their order, and finite maps from keys as lists of
entries sorted by key. The order is total and agrees with equality, `insert`
keeps a list sorted, and `get?` sees exactly what was inserted last.
-/

namespace MonkeyLang

/-- A hashable value. -/
inductive Key where
  | integer (n : Int64)
  | boolean (b : Bool)
  | string (s : String)
  deriving DecidableEq, Repr, Inhabited

namespace Key

/-- Integers by value, then false and true, then strings by code point. -/
def compare : Key → Key → Ordering
  | .integer m, .integer n => Ord.compare m n
  | .integer _, _ => .lt
  | .boolean _, .integer _ => .gt
  | .boolean a, .boolean b => Ord.compare a b
  | .boolean _, .string _ => .lt
  | .string s, .string t => Ord.compare s t
  | .string _, _ => .gt

theorem compare_eq_iff {k l : Key} : k.compare l = .eq ↔ k = l := by
  cases k <;> cases l <;> simp [compare]

theorem compare_swap (k l : Key) : k.compare l = (l.compare k).swap := by
  cases k <;> cases l <;> simp only [compare, Ordering.swap_lt, Ordering.swap_gt]
  all_goals exact Std.OrientedCmp.eq_swap

theorem compare_trans {k l m : Key} (h₁ : k.compare l = .lt) (h₂ : l.compare m = .lt) :
    k.compare m = .lt := by
  cases k <;> cases l <;> cases m <;> simp only [compare, reduceCtorEq] at h₁ h₂ ⊢
  all_goals exact Std.TransCmp.lt_trans h₁ h₂

theorem compare_gt_iff {k l : Key} : k.compare l = .gt ↔ l.compare k = .lt := by
  rw [compare_swap k l]
  cases l.compare k <;> simp

end Key

/-- A finite map from keys, in increasing order of the keys. -/
abbrev Entries (α : Type) := List (Key × α)

namespace Entries

/-- The entry with `a` under `k`; an earlier entry under `k` gives way. -/
def insert {α : Type} (k : Key) (a : α) : Entries α → Entries α
  | [] => [(k, a)]
  | (l, b) :: rest =>
    match k.compare l with
    | .lt => (k, a) :: (l, b) :: rest
    | .eq => (k, a) :: rest
    | .gt => (l, b) :: insert k a rest

def get? {α : Type} (es : Entries α) (k : Key) : Option α :=
  (es.find? (·.1 = k)).map (·.2)

/-- The map of these entries, of which a later one replaces an earlier one with the same key. -/
def ofList {α : Type} (es : List (Key × α)) : Entries α :=
  es.foldl (fun m e => insert e.1 e.2 m) []

/-- The keys increase. -/
def Sorted {α : Type} (es : Entries α) : Prop := es.Pairwise fun d e => d.1.compare e.1 = .lt

variable {α : Type}

@[simp] theorem get?_nil (k : Key) : get? ([] : Entries α) k = none := rfl

theorem get?_cons (l : Key) (b : α) (es : Entries α) (k : Key) :
    get? ((l, b) :: es) k = if l = k then some b else get? es k := by
  by_cases h : l = k <;> simp [get?, h]

theorem get?_insert_self (es : Entries α) (k : Key) (a : α) : get? (insert k a es) k = some a := by
  induction es with
  | nil => simp [insert, get?_cons]
  | cons e es ih =>
    obtain ⟨l, b⟩ := e
    simp only [insert]
    split
    · simp [get?_cons]
    · simp [get?_cons]
    · rename_i h
      have hne : l ≠ k := by
        rintro rfl
        rw [Key.compare_eq_iff.2 rfl] at h
        cases h
      rw [get?_cons, if_neg hne, ih]

theorem get?_insert_other (es : Entries α) {k m : Key} (a : α) (h : m ≠ k) :
    get? (insert k a es) m = get? es m := by
  induction es with
  | nil => simp [insert, get?_cons, h.symm]
  | cons e es ih =>
    obtain ⟨l, b⟩ := e
    simp only [insert]
    split
    · rw [get?_cons, if_neg h.symm]
    · rename_i hk
      obtain rfl := Key.compare_eq_iff.1 hk
      rw [get?_cons, get?_cons, if_neg h.symm]
      simp [h.symm]
    · rw [get?_cons, get?_cons, ih]

theorem mem_of_get? {es : Entries α} {k : Key} {a : α} (h : get? es k = some a) : (k, a) ∈ es := by
  obtain ⟨e, he, rfl⟩ := Option.map_eq_some_iff.1 h
  have hk : e.1 = k := by simpa using List.find?_some he
  exact hk ▸ List.mem_of_find?_eq_some he

theorem mem_insert {k : Key} {a : α} {es : Entries α} {e : Key × α} (h : e ∈ insert k a es) :
    e = (k, a) ∨ e ∈ es := by
  induction es with
  | nil => simpa [insert] using h
  | cons d es ih =>
    obtain ⟨l, b⟩ := d
    simp only [insert] at h
    split at h
    · simpa using h
    · rcases List.mem_cons.1 h with rfl | h
      · exact .inl rfl
      · exact .inr (List.mem_cons_of_mem _ h)
    · rcases List.mem_cons.1 h with rfl | h
      · exact .inr List.mem_cons_self
      · exact (ih h).imp id (List.mem_cons_of_mem _)

theorem Sorted.insert {es : Entries α} (h : Sorted es) (k : Key) (a : α) :
    Sorted (Entries.insert k a es) := by
  induction es with
  | nil => exact List.pairwise_singleton _ _
  | cons e es ih =>
    obtain ⟨l, b⟩ := e
    obtain ⟨hl, hes⟩ := List.pairwise_cons.1 h
    simp only [Entries.insert]
    split
    · rename_i hk
      refine List.pairwise_cons.2 ⟨fun d hd => ?_, h⟩
      rcases List.mem_cons.1 hd with rfl | hd
      · exact hk
      · exact Key.compare_trans hk (hl d hd)
    · rename_i hk
      obtain rfl := Key.compare_eq_iff.1 hk
      exact List.pairwise_cons.2 ⟨hl, hes⟩
    · rename_i hk
      refine List.pairwise_cons.2 ⟨fun d hd => ?_, ih hes⟩
      rcases mem_insert hd with rfl | hd
      · exact Key.compare_gt_iff.1 hk
      · exact hl d hd

/-- A key above all others goes to the end. -/
theorem insert_of_forall_lt {es : Entries α} {k : Key} (a : α)
    (h : ∀ e ∈ es, e.1.compare k = .lt) : Entries.insert k a es = es ++ [(k, a)] := by
  induction es with
  | nil => rfl
  | cons e es ih =>
    obtain ⟨hl, hes⟩ := List.forall_mem_cons.1 h
    rw [Entries.insert, Key.compare_gt_iff.2 hl]
    exact congrArg _ (ih hes)

/-- The entries of a map, inserted one after another, give the map. -/
theorem Sorted.ofList_eq {es : Entries α} (h : Sorted es) : ofList es = es := by
  have hfold : ∀ (es m : Entries α), Sorted (m ++ es) →
      es.foldl (fun m e => Entries.insert e.1 e.2 m) m = m ++ es := by
    intro es
    induction es with
    | nil => exact fun m _ => (List.append_nil m).symm
    | cons e es ih =>
      intro m hm
      have hlt : ∀ d ∈ m, d.1.compare e.1 = .lt :=
        fun d hd => (List.pairwise_append.1 hm).2.2 d hd e List.mem_cons_self
      rw [← List.singleton_append, ← List.append_assoc] at hm ⊢
      rw [List.singleton_append, List.foldl_cons, insert_of_forall_lt e.2 hlt]
      exact ih _ hm
  exact hfold es [] h

theorem sorted_ofList (es : List (Key × α)) : Sorted (ofList es) := by
  have h : ∀ (es : List (Key × α)) (m : Entries α), Sorted m →
      Sorted (es.foldl (fun m e => Entries.insert e.1 e.2 m) m) := by
    intro es
    induction es with
    | nil => exact fun m hm => hm
    | cons e es ih => exact fun m hm => ih _ (hm.insert e.1 e.2)
  exact h es [] .nil

end Entries

end MonkeyLang
