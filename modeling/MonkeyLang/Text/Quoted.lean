/-
Text in quotes, with every character that would be misread or not seen spelled
out, so that a listing of quoted texts takes one line each.
-/
import MonkeyLang.Text.Hidden

namespace MonkeyLang.Text

/-- The lower-case hexadecimal digits of a number, the first of them not zero. -/
def hexDigits (n : Nat) : List Char := Nat.toDigits 16 n

/-- A character inside quotes. `hidden` says which further characters are given by their code
point. -/
def escape (hidden : Char → Bool) (c : Char) : List Char :=
  if c = '\x00' then ['\\', '0']
  else if c = '\t' then ['\\', 't']
  else if c = '\n' then ['\\', 'n']
  else if c = '\r' then ['\\', 'r']
  else if c = '"' then ['\\', '"']
  else if c = '\\' then ['\\', '\\']
  else if hidden c then ['\\', 'u', '\x7b'] ++ hexDigits c.toNat ++ ['\x7d']
  else [c]

/-- The text in quotes, with the given notion of a hidden character. -/
def quoteWith (hidden : Char → Bool) (text : String) : String :=
  String.ofList ('"' :: text.toList.flatMap (escape hidden) ++ ['"'])

/-- The text in quotes. -/
def quote (text : String) : String := quoteWith isHidden text

end MonkeyLang.Text
