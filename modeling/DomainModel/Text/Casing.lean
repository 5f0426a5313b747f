/-
Small and capital letters of whole texts, and letters with their marks.

A character may map to several (`ß` becomes `SS`), so the maps return lists.  Over a
text one letter needs its surroundings: a capital sigma that ends a word becomes the
final form.  `lower` looks for that, `lowerChar` on its own does not.

A name is cut between what a reader takes for characters, so an `e` and the accent
written after it must stay together.  A cluster is a character with the marks that
follow it and the leading signs before it.

Not covered: syllable blocks, flags and joined pictures are left in pieces.  One circled
letter apart they bear no case, so no cut inside a name depends on them.
-/
import DomainModel.Text.CaseTable
import DomainModel.Text.ClassTable

namespace DomainModel.Text

/-! ### Casing -/

/-- What the tables say of a code point: a sequence, a stretch it lies in, or itself. -/
def mapCase (sequences : List (Nat × List Nat)) (runs : List CaseRun) (c : Char) : List Char :=
  match sequences.lookup c.toNat with
  | some image => image.map Char.ofNat
  | none => [((runs.findSome? (·.map? c.toNat)).map Char.ofNat).getD c]

def lowerChar (c : Char) : List Char :=
  if c.toNat < 128 then [c.toLower] else mapCase lowerSequences lowerRuns c

def upperChar (c : Char) : List Char :=
  if c.toNat < 128 then [c.toUpper] else mapCase upperSequences upperRuns c

def upper (cs : List Char) : List Char := cs.flatMap upperChar

/-- Is the next character that counts a letter with case? -/
def letterAhead (cs : List Char) : Bool :=
  match cs.dropWhile (fun c => caseIgnorable.contains c.toNat) with
  | [] => false
  | c :: _ => cased.contains c.toNat

/-- Small letters of `cs`, where `before` is what precedes it, nearest first. -/
def lowerAfter (before : List Char) : List Char → List Char
  | [] => []
  | c :: cs =>
    (if c = 'Σ' then
      [if letterAhead before && !letterAhead cs then 'ς' else 'σ']
    else lowerChar c) ++ lowerAfter (c :: before) cs

def lower (cs : List Char) : List Char := lowerAfter [] cs

/-- Has case, and is all capital. -/
def isUpper (cs : List Char) : Bool := upper cs != lower cs && cs == upper cs

/-- Has case, and is all small. -/
def isLower (cs : List Char) : Bool := upper cs != lower cs && cs == lower cs

/-! ### Clusters -/

/-- Joins the character before it. -/
def isMark (c : Char) : Bool := 0x300 ≤ c.toNat && marks.contains c.toNat

/-- Joins the character after it. -/
def isLead (c : Char) : Bool := 0x300 ≤ c.toNat && leads.contains c.toNat

/-- The clusters of a text, in order; their concatenation is the text. -/
def clusters : List Char → List (List Char)
  | [] => []
  | c :: cs =>
    match clusters cs with
    | (d :: ds) :: rest =>
      if isMark d || isLead c then (c :: d :: ds) :: rest else [c] :: (d :: ds) :: rest
    | rest => [c] :: rest

end DomainModel.Text
