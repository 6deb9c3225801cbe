/-
The frames of variables. A frame has slots of its own and may have a parent, in
which a name is looked up that the frame has no slot for. Functions share the
frames they were made in, so frames are numbered and live in a store.
-/
import MonkeyLang.Value

namespace MonkeyLang

/-- The variables of one frame, no name twice. -/
abbrev Slots := List (String × Value)

namespace Slots

def get? (ss : Slots) (name : String) : Option Value :=
  (ss.find? (·.1 = name)).map (·.2)

/-- The slots with `v` under `name`. -/
def insert (name : String) (v : Value) : Slots → Slots
  | [] => [(name, v)]
  | (m, w) :: rest => if m = name then (name, v) :: rest else (m, w) :: insert name v rest

/-- The slots of these bindings, of which a later one replaces an earlier one. -/
def ofList (bindings : List (String × Value)) : Slots :=
  bindings.foldl (fun ss b => insert b.1 b.2 ss) []

theorem get?_insert_self (ss : Slots) (n : String) (v : Value) :
    get? (insert n v ss) n = some v := by
  induction ss with
  | nil => simp [insert, get?]
  | cons s ss ih =>
    obtain ⟨m, w⟩ := s
    by_cases h : m = n
    · simp [insert, get?, h]
    · simpa [insert, get?, h, List.find?_cons] using ih

theorem get?_insert_other (ss : Slots) {n m : String} (v : Value) (h : m ≠ n) :
    get? (insert n v ss) m = get? ss m := by
  induction ss with
  | nil => simp [insert, get?, h.symm]
  | cons s ss ih =>
    obtain ⟨l, w⟩ := s
    by_cases hl : l = n
    · subst hl; simp [insert, get?, h.symm]
    · by_cases hm : l = m
      · subst hm; simp [insert, get?, hl]
      · simpa [insert, get?, hl, hm, List.find?_cons] using ih

theorem mem_of_get? {ss : Slots} {n : String} {v : Value} (h : get? ss n = some v) :
    (n, v) ∈ ss := by
  obtain ⟨s, hs, rfl⟩ := Option.map_eq_some_iff.1 h
  have hn : s.1 = n := by simpa using List.find?_some hs
  exact hn ▸ List.mem_of_find?_eq_some hs

theorem mem_insert {s : String × Value} {n : String} {v : Value} {ss : Slots}
    (h : s ∈ insert n v ss) : s = (n, v) ∨ s ∈ ss := by
  induction ss with
  | nil => simpa [insert] using h
  | cons t ss ih =>
    obtain ⟨m, w⟩ := t
    simp only [insert] at h
    split at h
    · exact (List.mem_cons.1 h).imp id (List.mem_cons_of_mem _)
    · rcases List.mem_cons.1 h with rfl | h
      · exact .inr List.mem_cons_self
      · exact (ih h).imp id (List.mem_cons_of_mem _)

theorem mem_ofList {s : String × Value} {bs : List (String × Value)} (h : s ∈ ofList bs) :
    s ∈ bs := by
  have hfold : ∀ (bs : List (String × Value)) (ss : Slots),
      s ∈ bs.foldl (fun ss b => insert b.1 b.2 ss) ss → s ∈ bs ∨ s ∈ ss := by
    intro bs
    induction bs with
    | nil => exact fun ss h => .inr h
    | cons b bs ih =>
      intro ss h
      rcases ih _ h with h | h
      · exact .inl (List.mem_cons_of_mem _ h)
      · rcases mem_insert h with rfl | h
        · exact .inl List.mem_cons_self
        · exact .inr h
  exact (hfold bs [] h).resolve_right List.not_mem_nil

end Slots

structure Frame where
  parent : Option FrameId
  slots : Slots

/-- All frames there are, numbered in the order in which they were made. -/
structure Store where
  frames : Array Frame

namespace Store

def empty : Store := ⟨#[]⟩

/-- One more frame, and its number. -/
def newFrame (s : Store) (parent : Option FrameId) (slots : Slots) : FrameId × Store :=
  (s.frames.size, ⟨s.frames.push ⟨parent, slots⟩⟩)

/-- The first frame with a slot for the name among the first `n` frames from `f` upwards, with
what is in the slot. -/
def findFrom (s : Store) (name : String) : Nat → FrameId → Option (FrameId × Value)
  | 0, _ => none
  | n + 1, f => do
    let frame ← s.frames[f]?
    match frame.slots.get? name with
    | some v => some (f, v)
    | none => s.findFrom name n (← frame.parent)

/-- The frame that a name belongs to as seen from `f`, with what is in its slot. A chain of parents
that returns to no frame is never longer than the store. -/
def find? (s : Store) (f : FrameId) (name : String) : Option (FrameId × Value) :=
  s.findFrom name s.frames.size f

/-- The frame that a name belongs to as seen from `f`. -/
def resolve? (s : Store) (f : FrameId) (name : String) : Option FrameId :=
  (s.find? f name).map (·.1)

/-- The value of a name as seen from `f`. -/
def get? (s : Store) (f : FrameId) (name : String) : Option Value :=
  (s.find? f name).map (·.2)

/-- Binds the name in `f` itself, whatever it means further up. -/
def define (s : Store) (f : FrameId) (name : String) (v : Value) : Store :=
  ⟨s.frames.modify f fun frame => { frame with slots := frame.slots.insert name v }⟩

/-- Changes the variable that the name belongs to as seen from `f`, and says whether there is
one. -/
def assign (s : Store) (f : FrameId) (name : String) (v : Value) : Bool × Store :=
  match s.resolve? f name with
  | some g => (true, s.define g name v)
  | none => (false, s)

end Store

end MonkeyLang
