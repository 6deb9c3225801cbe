/-
Equality of values is the kernel of a function. Two errors are equal if they say
the same, whatever caused them, and everything else is equal if its parts are; so
values are equal just if they become the same when each error in them is replaced
by its message. An equivalence it is for this reason alone, and what can be told
of a value after the replacement is the same for equal values.
-/
import MonkeyLang.Proofs.Hashes
import MonkeyLang.Value.Printer

namespace MonkeyLang

mutual

/-- The value with the messages of errors in place of their causes. -/
def Value.plain : Value → Value
  | .array vs => .array (Value.plainList vs)
  | .hash es => .hash (Value.plainEntries es)
  | .signal s => .signal s.plain
  | v => v

def Signal.plain : Signal → Signal
  | .fault f => .fault (.custom f.message)
  | .returned v => .returned v.plain
  | .brk => .brk
  | .cont => .cont

def Value.plainList : List Value → List Value
  | [] => []
  | v :: vs => v.plain :: Value.plainList vs

def Value.plainEntries : List (Key × Value) → List (Key × Value)
  | [] => []
  | (k, v) :: es => (k, v.plain) :: Value.plainEntries es

end

mutual

theorem Value.equal_iff_plain : ∀ v w : Value, v.equal w ↔ v.plain = w.plain
  | .null, w | .integer _, w | .boolean _, w | .string _, w | .function _, w | .builtin _, w => by
    cases w <;> simp [Value.equal, Value.plain]
  | .array vs, w => by
    cases w with
    | array ws => simp [Value.equal, Value.plain, Value.equalList_iff_plain vs ws]
    | _ => simp [Value.equal, Value.plain]
  | .hash es, w => by
    cases w with
    | hash fs => simp [Value.equal, Value.plain, Value.equalEntries_iff_plain es fs]
    | _ => simp [Value.equal, Value.plain]
  | .signal s, w => by
    cases w with
    | signal t => simp [Value.equal, Value.plain, Signal.equal_iff_plain s t]
    | _ => simp [Value.equal, Value.plain]

theorem Signal.equal_iff_plain : ∀ s t : Signal, s.equal t ↔ s.plain = t.plain
  | .fault _, t | .brk, t | .cont, t => by
    cases t <;> simp [Signal.equal, Signal.plain]
  | .returned v, t => by
    cases t with
    | returned w => simp [Signal.equal, Signal.plain, Value.equal_iff_plain v w]
    | _ => simp [Signal.equal, Signal.plain]

theorem Value.equalList_iff_plain : ∀ vs ws : List Value,
    Value.equalList vs ws ↔ Value.plainList vs = Value.plainList ws
  | [], ws => by cases ws <;> simp [Value.equalList, Value.plainList]
  | v :: vs, ws => by
    cases ws with
    | nil => simp [Value.equalList, Value.plainList]
    | cons w ws =>
      simp [Value.equalList, Value.plainList, Value.equal_iff_plain v w,
        Value.equalList_iff_plain vs ws]

theorem Value.equalEntries_iff_plain : ∀ es fs : List (Key × Value),
    Value.equalEntries es fs ↔ Value.plainEntries es = Value.plainEntries fs
  | [], fs => by cases fs <;> simp [Value.equalEntries, Value.plainEntries]
  | (k, v) :: es, fs => by
    cases fs with
    | nil => simp [Value.equalEntries, Value.plainEntries]
    | cons f fs =>
      obtain ⟨l, w⟩ := f
      simp [Value.equalEntries, Value.plainEntries, Value.equal_iff_plain v w,
        Value.equalEntries_iff_plain es fs, and_assoc]

end

mutual

theorem Value.render_plain (nested : Bool) : ∀ v : Value, v.plain.render nested = v.render nested
  | .null | .integer _ | .boolean _ | .string _ | .function _ | .builtin _ => rfl
  | .array vs => by rw [Value.plain, Value.render, Value.render, Value.renderList_plain vs]
  | .hash es => by rw [Value.plain, Value.render, Value.render, Value.renderEntries_plain es]
  | .signal s => by rw [Value.plain, Value.render, Value.render, Signal.render_plain s]

theorem Signal.render_plain : ∀ s : Signal, s.plain.render = s.render
  | .fault _ | .brk | .cont => rfl
  | .returned v => by rw [Signal.plain, Signal.render, Signal.render, Value.render_plain false v]

theorem Value.renderList_plain : ∀ vs : List Value,
    Value.renderList (Value.plainList vs) = Value.renderList vs
  | [] => rfl
  | v :: vs => by
    rw [Value.plainList, Value.renderList, Value.renderList, Value.render_plain true v,
      Value.renderListTail_plain vs]

theorem Value.renderListTail_plain : ∀ vs : List Value,
    Value.renderListTail (Value.plainList vs) = Value.renderListTail vs
  | [] => rfl
  | v :: vs => by
    rw [Value.plainList, Value.renderListTail, Value.renderListTail, Value.render_plain true v,
      Value.renderListTail_plain vs]

theorem Value.renderEntries_plain : ∀ es : List (Key × Value),
    Value.renderEntries (Value.plainEntries es) = Value.renderEntries es
  | [] => rfl
  | (k, v) :: es => by
    rw [Value.plainEntries, Value.renderEntries, Value.renderEntries, Value.render_plain true v,
      Value.renderEntriesTail_plain es]

theorem Value.renderEntriesTail_plain : ∀ es : List (Key × Value),
    Value.renderEntriesTail (Value.plainEntries es) = Value.renderEntriesTail es
  | [] => rfl
  | (k, v) :: es => by
    rw [Value.plainEntries, Value.renderEntriesTail, Value.renderEntriesTail,
      Value.render_plain true v, Value.renderEntriesTail_plain es]

end

namespace Value

variable {v w : Value} {vs ws : List Value} {es fs : Entries Value} {k l : Key}

theorem tag_plain (v : Value) : v.plain.tag = v.tag := by
  cases v with
  | signal s => cases s <;> rfl
  | _ => rfl

theorem isTruthy_plain (v : Value) : v.plain.isTruthy = v.isTruthy := by
  cases v <;> rfl

theorem key?_plain (v : Value) : v.plain.key? = v.key? := by
  cases v <;> rfl

/-- What the replacement does not change is the same for equal values. -/
theorem congr_of_plain {α : Type} {F : Value → α} (hF : ∀ v, F v.plain = F v) (h : v.equal w) :
    F v = F w := by
  rw [← hF v, ← hF w, (equal_iff_plain v w).1 h]

theorem plainList_eq (vs : List Value) : plainList vs = vs.map plain := by
  induction vs with
  | nil => rfl
  | cons v vs ih => rw [plainList, ih, List.map_cons]

theorem get?_plainEntries (es : Entries Value) (k : Key) :
    Entries.get? (plainEntries es) k = (Entries.get? es k).map plain := by
  induction es with
  | nil => rfl
  | cons e es ih =>
    obtain ⟨l, v⟩ := e
    rw [plainEntries, Entries.get?_cons, Entries.get?_cons, ih]
    split <;> rfl

theorem plainEntries_eq (es : Entries Value) :
    plainEntries es = es.map fun e => (e.1, e.2.plain) := by
  induction es with
  | nil => rfl
  | cons e es ih => rw [plainEntries, ih, List.map_cons]

theorem sorted_plainEntries (h : es.Sorted) : Entries.Sorted (plainEntries es) := by
  rw [plainEntries_eq]
  exact List.pairwise_map.2 h

/-- Arrays are equal item by item. -/
theorem equal_array_iff : (array vs).equal (array ws) ↔ vs.length = ws.length ∧
    ∀ (i : Nat) (h : i < vs.length) (h' : i < ws.length), vs[i].equal ws[i] := by
  rw [equal, equalList_iff_plain, plainList_eq, plainList_eq]
  constructor
  · intro h
    have hlen : vs.length = ws.length := by simpa using congrArg List.length h
    refine ⟨hlen, fun i hi hi' => (equal_iff_plain _ _).2 ?_⟩
    have hget := congrArg (·[i]?) h
    simpa [hi, hi'] using hget
  · rintro ⟨hlen, hall⟩
    refine List.ext_getElem (by simpa using hlen) fun i hi hi' => ?_
    rw [List.getElem_map, List.getElem_map]
    rw [List.length_map] at hi hi'
    exact (equal_iff_plain _ _).1 (hall i hi hi')

/-- Hashes are equal look-up by look-up. -/
theorem equal_hash_iff (hes : es.Sorted) (hfs : fs.Sorted) : (hash es).equal (hash fs) ↔
    (∀ k, k ∈ es.map (·.1) ↔ k ∈ fs.map (·.1)) ∧
      ∀ k v w, es.get? k = some v → fs.get? k = some w → v.equal w := by
  -- Sorted entries are known by their look-ups, so that both sides can be compared key by key.
  have hlook : (hash es).equal (hash fs) ↔
      ∀ k, (es.get? k).map plain = (fs.get? k).map plain := by
    rw [equal, equalEntries_iff_plain]
    constructor
    · intro h k
      rw [← get?_plainEntries, h, get?_plainEntries]
    · intro h
      refine (sorted_plainEntries hes).ext (sorted_plainEntries hfs) fun k => ?_
      rw [get?_plainEntries, get?_plainEntries, h]
  simp only [hlook, Entries.mem_keys_iff, equal_iff_plain, ← forall_and]
  refine forall_congr' fun k => ?_
  cases es.get? k <;> cases fs.get? k <;> simp

theorem equal_iff_key (hv : v.key? = some k) (hw : w.key? = some l) : v.equal w ↔ k = l := by
  rw [key?_eq_some_iff] at hv hw
  rw [hv, hw, Key.equal_toValue_iff]

end Value

/-- A key that is neither before nor after another one is the same. -/
theorem Key.eq_iff_not_lt {k l : Key} : k = l ↔ k.compare l ≠ .lt ∧ l.compare k ≠ .lt := by
  rw [← Key.compare_eq_iff, ne_eq, ne_eq, ← Key.compare_gt_iff (k := k) (l := l)]
  cases k.compare l <;> decide

/-- Equality of values is an equivalence, and equal values have the same type, truth, key and texts.
Functions are equal if they are the same one, arrays and hashes if they have as many items, or the
same keys, and equal ones in the same places. For values that can be keys it is equality of the
keys, which the order of keys decides. -/
theorem Value.equal_congruence :
    Equivalence (fun v w : Value => v.equal w = true) ∧
    (∀ v w : Value, v.equal w → v.tag.name = w.tag.name ∧ v.isTruthy = w.isTruthy ∧
      v.key? = w.key? ∧ v.display = w.display ∧ v.inspect = w.inspect) ∧
    (∀ f g : Closure, (Value.function f).equal (.function g) ↔ f = g) ∧
    (∀ vs ws : List Value, (Value.array vs).equal (.array ws) ↔ vs.length = ws.length ∧
      ∀ (i : Nat) (h : i < vs.length) (h' : i < ws.length), vs[i].equal ws[i]) ∧
    (∀ es fs : Entries Value, es.Sorted → fs.Sorted → ((Value.hash es).equal (.hash fs) ↔
      (∀ k, k ∈ es.map (·.1) ↔ k ∈ fs.map (·.1)) ∧
        ∀ k v w, es.get? k = some v → fs.get? k = some w → v.equal w)) ∧
    ∀ (v w : Value) (k l : Key), v.key? = some k → w.key? = some l →
      (v.equal w ↔ k = l) ∧ (k = l ↔ k.compare l ≠ .lt ∧ l.compare k ≠ .lt) := by
  refine ⟨?_, fun v w h => ?_, fun f g => ?_, fun vs ws => equal_array_iff,
    fun es fs hes hfs => equal_hash_iff hes hfs,
    fun v w k l hv hw => ⟨equal_iff_key hv hw, Key.eq_iff_not_lt⟩⟩
  · simp only [equal_iff_plain]
    exact ⟨fun _ => rfl, Eq.symm, Eq.trans⟩
  · exact ⟨congrArg Tag.name (congr_of_plain tag_plain h), congr_of_plain isTruthy_plain h,
      congr_of_plain key?_plain h, congr_of_plain (render_plain false) h,
      congr_of_plain (render_plain true) h⟩
  · simp [equal]

/-- A hash that holds an error. -/
def mishap (e : Fault) : Entries Value :=
  [(.integer 1, .array [.signal (.fault e)]), (.boolean true, .null), (.string "a", .string "b")]

/-- It is the same hash with the words of the error only, and another one with other words. -/
theorem Value.equal_congruence_mishap :
    let told := mishap (.custom "identifier not found: x")
    (Value.hash (mishap (.unbound "x"))).equal (.hash told) ∧
    (Value.hash told).equal (.hash (mishap (.unbound "x"))) ∧
    (Value.hash told).display = (Value.hash (mishap (.unbound "x"))).display ∧
    ¬(Value.hash told).equal (.hash (mishap .divisionByZero)) ∧
    ¬(Value.integer 1).equal (.integer 2) := by
  intro told
  obtain ⟨hequiv, hsame, -, -, hhash, hkey⟩ := equal_congruence
  have htold : (Value.hash (mishap (.unbound "x"))).equal (.hash told) := by
    decide +kernel
  have hback : (Value.hash told).equal (.hash (mishap (.unbound "x"))) := hequiv.symm htold
  have hsorted (e : Fault) : (mishap e).Sorted := by
    simp only [Entries.Sorted, mishap, List.pairwise_cons]
    decide
  refine ⟨htold, hback, (hsame _ _ hback).2.2.2.1, fun h => ?_, fun h => ?_⟩
  · have hmember := ((hhash _ _ (hsorted _) (hsorted _)).1 h).2 (.integer 1) _ _ rfl rfl
    revert hmember
    decide +kernel
  · have hone := ((hkey _ _ (.integer 1) (.integer 2) rfl rfl).1).1 h
    revert hone
    decide

end MonkeyLang
