/-
Decimal numbers that keep their scale.

A `Decimal` is a whole number of units and the count of places behind the point, so
`1.50` is 150 units of two places and prints as it was read.  At most `maxScale` places
and units up to `maxUnits` can be held.  Digits behind the point that do not fit are
rounded away: reading stops there and the next character alone decides, upwards from
five.  Digits before the point that do not fit are an error.
-/

namespace DomainModel

structure Decimal where
  units : Int
  scale : Nat
  deriving DecidableEq, Repr, Inhabited

namespace Decimal

def maxScale : Nat := 28

/-- The largest number of 96 bits. -/
def maxUnits : Nat := 79228162514264337593543950335

def ofInt (n : Int) : Decimal := ⟨n, 0⟩

/-- The same number, whatever the scales. -/
def same (a b : Decimal) : Bool :=
  a.units * Nat.pow 10 b.scale == b.units * Nat.pow 10 a.scale

/-- Digits, with a point before the last `scale` of them. -/
def digitsText (n scale : Nat) : List Char :=
  let digits := Nat.toDigits 10 n
  if scale = 0 then digits
  else
    let padded := List.replicate (scale + 1 - digits.length) '0' ++ digits
    padded.take (padded.length - scale) ++ '.' :: padded.drop (padded.length - scale)

def text (d : Decimal) : String :=
  String.ofList ((if d.units < 0 then ['-'] else []) ++ digitsText d.units.natAbs d.scale)

/-- Why a text is no decimal. -/
inductive Error where
  | empty
  | noDigits
  | secondPoint
  | leadingUnderscore
  | unknownCharacter
  | tooManyDigits
  | roundingOverflow
  deriving DecidableEq, Repr

def Error.message : Error → String
  | .empty => "Invalid decimal: empty"
  | .noDigits => "Invalid decimal: no digits found"
  | .secondPoint => "Invalid decimal: two decimal points"
  | .leadingUnderscore => "Invalid decimal: must start lead with a number"
  | .unknownCharacter => "Invalid decimal: unknown character"
  | .tooManyDigits => "Invalid decimal: overflow from too many digits"
  | .roundingOverflow => "Invalid decimal: overflow from mantissa after rounding"

/-- What a character that is no digit in its place is refused for. -/
def refusal : Char → Error
  | '.' => .secondPoint
  | '_' => .leadingUnderscore
  | _ => .unknownCharacter

/-- Rounds `units` by the first character that did not fit.  When that makes the units
too large, one place less is kept. -/
def round (units scale : Nat) (next : Char) : Except Error (Nat × Nat) :=
  let up (digit : Nat) : Except Error (Nat × Nat) :=
    if digit < 5 then .ok (units, scale)
    else if units + 1 ≤ maxUnits then .ok (units + 1, scale)
    else if scale = 0 then .error .roundingOverflow
    else .ok ((units + 5) / 10, scale - 1)
  if next.isDigit then up (next.toNat - '0'.toNat)
  else if next = '_' || next = '.' then .ok (units, scale)
  else .error (refusal next)

/-- Reads digits, underscores after the first digit and one point. -/
def readUnits (seenDigit seenPoint : Bool) (units scale : Nat) :
    List Char → Except Error (Nat × Nat)
  | [] => if seenDigit then .ok (units, scale) else .error .noDigits
  | c :: cs =>
    if seenPoint && scale = maxScale then round units scale c
    else if c.isDigit then
      let more := units * 10 + (c.toNat - '0'.toNat)
      if more ≤ maxUnits then
        readUnits true seenPoint more (if seenPoint then scale + 1 else scale) cs
      else if seenPoint then round units scale c
      else .error .tooManyDigits
    else if c = '.' && !seenPoint then readUnits seenDigit true units scale cs
    else if c = '_' && seenDigit then readUnits seenDigit seenPoint units scale cs
    else .error (refusal c)

/-- Reads a decimal with an optional sign in front. -/
def parse (cs : List Char) : Except Error Decimal := do
  let (negative, body) := match cs with
    | '-' :: rest => (true, rest)
    | '+' :: rest => (false, rest)
    | rest => (false, rest)
  if cs.isEmpty then throw .empty
  let (units, scale) ← readUnits false false 0 0 body
  return ⟨if negative then -(units : Int) else units, scale⟩

end Decimal

end DomainModel
