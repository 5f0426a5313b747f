/-
Cutting a text into tokens.

`Lexer.measure` looks at the first character of what is left and says which kind of token
begins there and how many more characters belong to it.  So every token holds at least
one character and the tokens of a text, put together, are the text: nothing is dropped,
and a character that begins no token is a token of its own.
-/
import DomainModel.Token.Basic
import DomainModel.Token.Comment

namespace DomainModel.Lexer

def isSpace (c : Char) : Bool := c == ' ' || c == '\t' || c == '\r' || c == '\n'

/-- Letters of identifiers are ASCII; the underscore and the dollar sign count as such. -/
def isWordStart (c : Char) : Bool := c.isAlpha || c == '_' || c == '$'

def isWordPart (c : Char) : Bool := isWordStart c || c.isDigit

/-- How many characters of a quoted text follow the opening quote, and whether the
closing quote is the last of them.  A backslash takes the next character with it unless
that is a line feed. -/
def quotedBody (quote : Char) : List Char → Nat × Bool
  | [] => (0, false)
  | '\\' :: c :: cs =>
    if c = '\n' then (0, false)
    else let (n, closed) := quotedBody quote cs; (n + 2, closed)
  | c :: cs =>
    if c = quote then (1, true)
    else if c = '\\' then (0, false)
    else let (n, closed) := quotedBody quote cs; (n + 1, closed)

def quoted (quote : Char) (cs : List Char) : TokenKind × Nat :=
  let (n, closed) := quotedBody quote cs
  (if closed then .string else .invalid, n)

/-- The rest of a number whose first digit has been read: digits, and a point when a
digit follows it. -/
def number (cs : List Char) : TokenKind × Nat :=
  let whole := (cs.takeWhile Char.isDigit).length
  match cs.drop whole with
  | '.' :: places =>
    let n := (places.takeWhile Char.isDigit).length
    if n = 0 then (.integer, whole) else (.decimal, whole + 1 + n)
  | _ => (.integer, whole)

/-- The kind of the token that begins with `c`, and how many of the characters after `c`
belong to it. -/
def measure (c : Char) (cs : List Char) : TokenKind × Nat :=
  if isSpace c then (.whitespace, (cs.takeWhile isSpace).length)
  else if isWordStart c then (.ident, (cs.takeWhile isWordPart).length)
  else if c.isDigit then number cs
  else match c, cs with
    | '-', '-' :: _ => (.minusMinus, 1)
    | '-', d :: rest =>
      if d.isDigit then let (kind, n) := number rest; (kind, n + 1) else (.invalid, 0)
    | '/', '/' :: rest => (.lineComment, 1 + (rest.takeWhile (· != '\n')).length)
    | '/', '*' :: rest => let (kind, n) := Comment.measure rest; (kind, n - 1)
    | '"', _ => quoted '"' cs
    | '\'', _ => quoted '\'' cs
    | '\x7b', _ => (.lBrace, 0)
    | '\x7d', _ => (.rBrace, 0)
    | '[', _ => (.lBracket, 0)
    | ']', _ => (.rBracket, 0)
    | '(', _ => (.lParen, 0)
    | ')', _ => (.rParen, 0)
    | ';', _ => (.semicolon, 0)
    | ':', _ => (.colon, 0)
    | ',', _ => (.comma, 0)
    | '.', _ => (.dot, 0)
    | '=', _ => (.equals, 0)
    | '@', _ => (.atSign, 0)
    | '|', _ => (.pipe, 0)
    | '?', _ => (.question, 0)
    | _, _ => (.invalid, 0)

/-- The tokens of `cs`, which starts at the byte `start`. -/
def tokensFrom (start : Nat) : List Char → List Token
  | [] => []
  | c :: cs =>
    let (kind, n) := measure c cs
    let token : Token := ⟨kind, String.ofList (c :: cs.take n), start⟩
    token :: tokensFrom token.stop (cs.drop n)
termination_by cs => cs.length
decreasing_by simp only [List.length_drop, List.length_cons]; omega

end DomainModel.Lexer

namespace DomainModel

/-- The tokens of a source text. -/
def scan (source : String) : List Token := Lexer.tokensFrom 0 source.toList

end DomainModel
