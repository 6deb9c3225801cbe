/-
Two sets of blank characters: what separates the tokens of a program, and what
makes a line of a session empty.
-/
import MonkeyLang.Text.Ranges

namespace MonkeyLang.Text

/-- White space between tokens: space, tab, line feed, carriage return and form feed only. -/
def isSeparator (c : Char) : Bool :=
  c = ' ' || c = '\t' || c = '\n' || c = '\r' || c = '\x0c'

/-- The characters with the Unicode property White_Space. -/
def whiteSpaceRanges : Ranges :=
  [(0x9, 0xD), (0x20, 0x20), (0x85, 0x85), (0xA0, 0xA0), (0x1680, 0x1680), (0x2000, 0x200A),
   (0x2028, 0x2029), (0x202F, 0x202F), (0x205F, 0x205F), (0x3000, 0x3000)]

/-- A line with nothing but white space, in the wide sense of Unicode. -/
def isBlankLine (line : String) : Bool := line.toList.all whiteSpaceRanges.has

theorem whiteSpace_of_isSeparator {c : Char} (h : isSeparator c = true) :
    whiteSpaceRanges.has c = true := by
  simp only [isSeparator, Bool.or_eq_true, decide_eq_true_eq] at h
  rcases h with (((rfl | rfl) | rfl) | rfl) | rfl <;> decide

end MonkeyLang.Text
