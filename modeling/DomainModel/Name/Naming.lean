/-
Names derived from a declared name.

A `Naming` is the set of transforms a document is built with; `Naming.english` is the
usual one.  `Naming.formsOf` applies one to a declared name: class and instance name,
their plurals, and the two spellings with separators.  A naming may replace this
composition by one of its own.
-/
import DomainModel.Name.Words

namespace DomainModel

open Text Name

/-- Every name derived from one declared name. -/
structure NameForms where
  className : String
  instanceName : String
  classNamePlural : String
  instanceNamePlural : String
  kebabCase : String
  kebabCasePlural : String
  snakeCase : String
  deriving DecidableEq, Repr

/-- The transforms that produce derived names.  The forms of a name are composed of them,
unless the naming has forms of its own. -/
structure Naming where
  pluralize : String → String
  className : String → String
  instanceName : String → String
  kebabCase : String → String
  snakeCase : String → String
  ownForms? : Option (String → NameForms) := none

namespace Naming

/-- The instance name is taken from the class name; the plural of the class name is the
plural of the declared name as it was written. -/
def composed (n : Naming) (name : String) : NameForms where
  className := n.className name
  instanceName := n.instanceName (n.className name)
  classNamePlural := n.pluralize name
  instanceNamePlural := n.pluralize (n.instanceName (n.className name))
  kebabCase := n.kebabCase name
  kebabCasePlural := n.pluralize (n.kebabCase name)
  snakeCase := n.snakeCase name

/-- The forms of a declared name. -/
def formsOf (n : Naming) (name : String) : NameForms :=
  match n.ownForms? with
  | some forms => forms name
  | none => n.composed name

end Naming

namespace Name

/-- Capital first letters, separators gone: `order item` becomes `OrderItem`. -/
def classForm (name : List Char) : List Char :=
  ((separatedWords (trim name)).filter (!·.isEmpty)).flatMap upperFirst

/-- As `classForm`, with a small letter at the very front. -/
def instanceForm (name : List Char) : List Char :=
  match (separatedWords (trim name)).filter (!·.isEmpty) with
  | [] => []
  | word :: words => lowerFirst word ++ words.flatMap upperFirst

/-- Small letters, with `mark` between the words. -/
def separatedForm (mark : Char) (name : List Char) : List Char :=
  joinWith [mark] ((caseWords (trim name)).map lower)

end Name

/-- A transform of characters as one of texts. -/
def onText (f : List Char → List Char) (s : String) : String := String.ofList (f s.toList)

/-- English plurals and the common spellings. -/
def Naming.english : Naming where
  pluralize := onText plural
  className := onText classForm
  instanceName := onText instanceForm
  kebabCase := onText (separatedForm '-')
  snakeCase := onText (separatedForm '_')

end DomainModel
