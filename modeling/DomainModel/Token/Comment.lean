/-
Where a comment ends.

Behind its opening a comment is read in units: a character other than a star, or a star
with the character after it when that is no slash.  A star and a slash where a unit would
begin close the comment.  A star that a unit has swallowed can no longer close it, so
`/* a **/` runs on.

Stars right behind `/*` make the difference between a doc comment and a plain one.  An
odd number of them followed by a slash is a finished plain comment, an even number a
finished doc comment, but each may also be the beginning of a longer comment of the other
kind, and the longer one wins when it is closed.
-/
import DomainModel.Token.Kind

namespace DomainModel.Comment

/-- How far units reach, with the closing characters if they are there, and whether they
are there. -/
def body : List Char → Nat × Bool
  | [] => (0, false)
  | ['*'] => (0, false)
  | '*' :: '/' :: _ => (2, true)
  | '*' :: _ :: cs => let (n, closed) := body cs; (n + 2, closed)
  | _ :: cs => let (n, closed) := body cs; (n + 1, closed)

/-- The kind and length of what begins with `/*`, given the characters behind that. -/
def measure (cs : List Char) : TokenKind × Nat :=
  let stars := (cs.takeWhile (· == '*')).length
  -- Reads on with units; a comment that nothing closes is invalid as far as they reach.
  let readOn (kind : TokenKind) (consumed : Nat) (rest : List Char) : TokenKind × Nat :=
    let (n, closed) := body rest
    (if closed then kind else .invalid, consumed + n)
  match cs.drop stars with
  | [] => (.invalid, if stars = 0 then 1 else 3 + 2 * ((stars - 1) / 2))
  | '/' :: rest =>
    if stars = 0 then readOn .blockComment 2 cs
    else
      let whole := 2 + stars + 1
      let (short, long) := if stars % 2 = 1 then (TokenKind.blockComment, TokenKind.javadoc)
        else (TokenKind.javadoc, TokenKind.blockComment)
      if (body rest).1 = 0 then (short, whole) else readOn long whole rest
  | _ :: rest =>
    if stars = 0 then readOn .blockComment 2 cs
    else readOn .javadoc (2 + stars + 1) rest

end DomainModel.Comment
