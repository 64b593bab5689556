/-!
# Blanks and comments in rule text

Between the words of a rule there may be blanks and comments.  A comment runs
from `#` to the end of its line, which is a line feed, a carriage return with a
line feed, or the end of the text.  A `#` whose line ends in a lone carriage
return starts no comment.
-/

namespace PlacementRules

namespace Blank

/-- The blank characters: space, tab, line feed, carriage return and form feed. -/
def isBlankChar (c : Char) : Bool :=
  c == ' ' || c == '\t' || c == '\n' || c == '\r' || c == '\x0c'

def isLineEndChar (c : Char) : Bool :=
  c == '\n' || c == '\r'

/-- The text after a `#` is a comment: its line does not end in a lone return. -/
def startsComment (text : List Char) : Bool :=
  match text.dropWhile fun c => !isLineEndChar c with
  | '\r' :: '\n' :: _ => true
  | '\r' :: _ => false
  | _ => true

/-- What is left after blanks and comments, inside or outside a comment. -/
def skipFrom : (inComment : Bool) → List Char → List Char
  | _, [] => []
  | true, c :: rest => skipFrom (!isLineEndChar c) rest
  | false, c :: rest =>
      if isBlankChar c then skipFrom false rest
      else if c = '#' ∧ startsComment rest then skipFrom true rest
      else c :: rest

def skip (text : List Char) : List Char :=
  skipFrom false text

end Blank

end PlacementRules
