/-
Reading values off a list of tokens. A parser takes what it reads off the front
of the list and collects the errors it meets; it never goes back.
-/
import MonkeyLang.Program.ParseError

namespace MonkeyLang

/-- What came of reading: a value or none, the errors met, and the tokens not yet read. -/
structure Parsed (α : Type) where
  value : Option α
  errors : List ParseError
  rest : List Token

/-- A way to read a value off a list of tokens. -/
def Parser (α : Type) := List Token → Parsed α

namespace Parser

@[inline] def run {α : Type} (p : Parser α) (ts : List Token) : Parsed α := p ts

@[inline] protected def pure {α : Type} (a : α) : Parser α := fun ts => ⟨some a, [], ts⟩

/-- The second parser goes on where the first one stopped, unless that gave no value. -/
@[inline] protected def bind {α β : Type} (p : Parser α) (f : α → Parser β) : Parser β := fun ts =>
  match p ts with
  | ⟨none, errors, rest⟩ => ⟨none, errors, rest⟩
  | ⟨some a, errors, rest⟩ =>
    let q := f a rest
    ⟨q.value, errors ++ q.errors, q.rest⟩

instance : Monad Parser where
  pure := Parser.pure
  bind := Parser.bind

/-- Gives up. -/
def fail {α : Type} (e : ParseError) : Parser α := fun ts => ⟨none, [e], ts⟩

/-- The kind of the next token, which stays unread. After the last token the end of the source
comes for ever. -/
def peek : Parser Kind := fun ts =>
  match ts with
  | [] => ⟨some .eof, [], []⟩
  | t :: rest => ⟨some t.kind, [], t :: rest⟩

/-- The next token. -/
def next : Parser Token := fun ts =>
  match ts with
  | [] => ⟨some ⟨.eof, ""⟩, [], []⟩
  | t :: rest => ⟨some t, [], rest⟩

/-- Gives up at the next token, in place of which another kind had to come. -/
def unexpected {α : Type} (want : Kind) : Parser α := do
  let got ← peek
  fail (.expected want got)

/-- The next token, which has to be of this kind. -/
def expect (want : Kind) : Parser Token := do
  if (← peek) = want then next else unexpected want

/-- Reads the next token if it is of this kind. -/
def accept (want : Kind) : Parser Bool := do
  if (← peek) = want then
    let _ ← next
    pure true
  else pure false

/-- A name. -/
def name : Parser String := do
  let t ← expect .ident
  pure t.text

/-- Reads the next token, which has to be this symbol or keyword. -/
def symbol (want : Kind) : Parser Unit := do
  let _ ← expect want
  pure ()

/-- A semicolon, which may be missing. -/
def semicolon : Parser Unit := do
  let _ ← accept .semicolon
  pure ()

/-- Turns a failure into the value `none`; its errors remain. -/
def recover {α : Type} (p : Parser α) : Parser (Option α) := fun ts =>
  let r := p ts
  ⟨some r.value, r.errors, r.rest⟩

/-- At most `n` items up to the closing symbol, separated by commas; one more comma may follow the
last of them. `wanted` is the symbol that an error after an item asks for. -/
def commaList {α : Type} (close wanted : Kind) (item : Parser α) : Nat → Parser (List α)
  | 0 => unexpected wanted
  | n + 1 => do
    if ← accept close then pure []
    else
      let a ← item
      if ← accept .comma then
        let as ← commaList close wanted item n
        pure (a :: as)
      else if ← accept close then pure [a]
      else unexpected wanted

end Parser

end MonkeyLang
