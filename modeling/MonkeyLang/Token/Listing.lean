/-
The listing of a source's tokens: a line for each, with its kind and its text
in quotes.
-/
import MonkeyLang.Text.Quoted
import MonkeyLang.Token.Cursor

namespace MonkeyLang

/-- The line of a token in a listing, with the given notion of a hidden character. -/
def Token.lineWith (hidden : Char → Bool) (t : Token) : String :=
  t.kind.name ++ " " ++ Text.quoteWith hidden t.text ++ "\n"

/-- A line for each token. -/
def listingWith (hidden : Char → Bool) (ts : List Token) : String :=
  String.join (ts.map (Token.lineWith hidden))

/-- The listing of the tokens of a source. -/
def tokenListing (source : String) : String := listingWith Text.isHidden (tokens source)

end MonkeyLang
