/-
White space and what is done with it.

`isBlank` is the White_Space property of the character database, not the handful of
characters a programming language calls space: a no-break space or an ideographic
space around a name is dropped like any other.  `trim` works on both ends.  `splitOn` cuts a
text at a mark, `joinWith` puts pieces together again.
-/

namespace DomainModel.Text

/-- The White_Space property. -/
def isBlank (c : Char) : Bool :=
  (9 ≤ c.val && c.val ≤ 13) || c.val == 0x20 || c.val == 0x85 || c.val == 0xA0 ||
    c.val == 0x1680 || (0x2000 ≤ c.val && c.val ≤ 0x200A) || c.val == 0x2028 ||
    c.val == 0x2029 || c.val == 0x202F || c.val == 0x205F || c.val == 0x3000

def trimStart (cs : List Char) : List Char := cs.dropWhile isBlank

def trimEnd (cs : List Char) : List Char := (trimStart cs.reverse).reverse

def trim (cs : List Char) : List Char := trimEnd (trimStart cs)

/-- Drops `lead` from the front of a text that begins with it. -/
def dropLead (lead cs : List Char) : List Char :=
  if lead.isPrefixOf cs then cs.drop lead.length else cs

/-- The pieces between the occurrences of `mark`; a text without it is one piece. -/
def splitOn (mark : Char) : List Char → List (List Char)
  | [] => [[]]
  | c :: cs =>
    if c = mark then [] :: splitOn mark cs
    else match splitOn mark cs with
      | [] => [[c]]
      | piece :: pieces => (c :: piece) :: pieces

/-- The pieces with `glue` between neighbours. -/
def joinWith (glue : List Char) : List (List Char) → List Char
  | [] => []
  | [piece] => piece
  | piece :: pieces => piece ++ glue ++ joinWith glue pieces

end DomainModel.Text
