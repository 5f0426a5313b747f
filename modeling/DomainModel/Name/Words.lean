/-
The words of a name, and their plurals.

Two ways of cutting are used.  `caseWords` cuts at underscores and hyphens and
where the letters change case: `orderItem`, `order_item` and `OrderItem` have the same
two words, digits stay with the word before them, and an acronym ends before its last
capital when a word follows.  `separatedWords` cuts at written separators only.  A
separator is dropped but the words on both its sides are kept, empty or not.

A plural looks at the spelling alone: a hiss takes `es`, a `y` after anything but a vowel
becomes `ies`, everything else takes `s`.
-/
import DomainModel.Text.Blank
import DomainModel.Text.Casing

namespace DomainModel.Name

open DomainModel.Text

/-- Cuts a row of clusters.  A cluster that `isSeparator` ends the current word and is
dropped; one after which `isBreak` sees a cut ends the word it belongs to. -/
def wordsFrom (isSeparator : List Char → Bool) (isBreak : List (List Char) → Bool)
    (word : List Char) : List (List Char) → List (List Char)
  | [] => [word]
  | g :: gs =>
    if isSeparator g then word :: wordsFrom isSeparator isBreak [] gs
    else if isBreak (g :: gs) then (word ++ g) :: wordsFrom isSeparator isBreak [] gs
    else wordsFrom isSeparator isBreak (word ++ g) gs

def isDigits (g : List Char) : Bool := g.all Char.isDigit

/-- Is there a cut after the first cluster: from small letter or digit to capital, or
before the last capital of an acronym that a small letter follows? -/
def caseBreak : List (List Char) → Bool
  | a :: b :: rest =>
    (isLower a && isUpper b) || (isDigits a && isUpper b) ||
      (isUpper a && isUpper b && rest.head?.any isLower)
  | _ => false

def caseWords (cs : List Char) : List (List Char) :=
  wordsFrom (fun g => g == ['_'] || g == ['-']) caseBreak [] (clusters cs)

def separatedWords (cs : List Char) : List (List Char) :=
  wordsFrom (fun g => g == ['_'] || g == ['-'] || g == [' '] || g == ['.'])
    (fun _ => false) [] (clusters cs)

/-- The word with its first character capital, the rest as it is. -/
def upperFirst : List Char → List Char
  | [] => []
  | c :: cs => upperChar c ++ cs

/-- The word with its first character small, the rest as it is. -/
def lowerFirst : List Char → List Char
  | [] => []
  | c :: cs => lowerChar c ++ cs

/-! ### Plurals -/

def isVowel (c : Char) : Bool := "aeiou".toList.contains c.toLower

/-- Endings that take `es`. -/
def hisses : List (List Char) := ["s", "x", "z", "ch", "sh"].map String.toList

/-- The plural of a word without white space around it. -/
def pluralOf (word : List Char) : List Char :=
  if word.isEmpty then []
  else if hisses.any (·.isSuffixOf word) then word ++ ['e', 's']
  else match word.reverse with
    | 'y' :: before :: _ =>
      if isVowel before then word ++ ['s'] else word.dropLast ++ ['i', 'e', 's']
    | _ => word ++ ['s']

def plural (word : List Char) : List Char := pluralOf (trim word)

end DomainModel.Name
