/-
The text of a doc comment.

Delimiters go, and from every line the star it may begin with, one blank behind that star
and the white space at its end; blank lines around the whole go too.  What is indented
further than the star stays indented.
-/
import DomainModel.Text.Blank

namespace DomainModel.Text

/-- Drops `tail` from the back of a text that ends with it. -/
def dropTail (tail cs : List Char) : List Char :=
  (dropLead tail.reverse cs.reverse).reverse

/-- The lines of a text.  A line feed ends a line, and a carriage return before it goes
with it; nothing after the last line feed is no line. -/
def lines (cs : List Char) : List (List Char) :=
  let pieces := splitOn '\n' cs
  let ended := pieces.dropLast.map (dropTail ['\r'])
  match pieces.getLast? with
  | none | some [] => ended
  | some rest => ended ++ [rest]

/-- One line of a doc comment, without its star. -/
def docLine (line : List Char) : List Char :=
  trimEnd (dropLead [' '] (dropLead ['*'] (trimStart line)))

def docText (comment : List Char) : List Char :=
  let body := dropTail ['*', '/'] (dropLead ['/', '*', '*'] (trim comment))
  trim (joinWith ['\n'] ((lines body).map docLine))

end DomainModel.Text
