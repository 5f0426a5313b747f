/-
Entities, inputs, outputs, events and enums.

The four kinds with fields share one body.  A field may declare its own type on the spot,
in a block of fields behind it; that is the one place where a block of fields holds
another.
-/
import DomainModel.Grammar.Annotation

namespace DomainModel.Grammar

open Rule

/-- The words that may follow a field's type as checks on its value. -/
def validationWords : List String :=
  ["required", "unique", "min", "max", "minlength", "maxlength", "pattern"]

def validationAhead : Test := .word 0 validationWords

def validation : Rule :=
  node .validation
    (take ++
      ifThen (.next .lParen)
        (take ++
          whileDo (.both (.negation (.kind 0 [.rParen, .rBrace])) (.negation (.ends 0))) take ++
          expect .rParen)
        nothing)

def validations : Rule := whileDo validationAhead validation

def tableName : Rule :=
  ifThen (.next .lParen) (take ++ identifier .tableName .tableName ++ expect .rParen) nothing

/-- A pair of empty brackets, if they follow. -/
def brackets (otherwise : Rule) : Rule :=
  ifThen (.both (.next .lBracket) (.second .rBracket)) (take ++ take) otherwise

/-- Type of a field. -/
def fieldType : Rule :=
  ifThen (.next .ident) (node .fieldType (take ++ brackets nothing)) (missing .fieldType)

/-- A literal, or a dotted name that may be called without arguments. -/
def initialValue : Rule :=
  node .initialValue
    (ifThen (.kind 0 [.string, .integer, .decimal]) literal
      (ifThen (.next .ident)
        (take ++ whileDo (.both (.next .dot) (.second .ident)) (take ++ take) ++
          ifThen (.both (.next .lParen) (.second .rParen)) (take ++ take) nothing)
        (missing .initialValue)))

/-- Fields up to the closing brace. -/
def fields : Rule :=
  items .rBrace
    (ifThen (.kind 0 [.javadoc, .atSign, .ident]) (call .field) (junk .field))

def nestedField : Rule :=
  ifThen (.next .lBrace)
    (node .nestedField (take ++ fields ++ expect .rBrace ++ validations)) nothing

/-- The rule of the nonterminal `field`. -/
def field : Rule :=
  node .field
    (preamble ++ name ++ fieldType ++ tableName ++
      ifThen (.next .equals) (take ++ initialValue) nothing ++
      validations ++ suffixJavadoc ++ nestedField ++ accept .comma ++ suffixJavadoc)

/-- A block in braces, if it opens. -/
def braced (body : Rule) : Rule :=
  ifThen (.next .lBrace) (take ++ body ++ expect .rBrace) (missing (.token .lBrace))

def declBody : Rule := node .declBody (braced fields)

def enumValue : Rule :=
  node .enumValue
    (accept .javadoc ++ name ++
      ifThen (.next .lParen) (take ++ literal ++ expect .rParen) nothing ++
      accept .comma ++ suffixJavadoc)

def enumBody : Rule :=
  node .enumBody
    (braced
      (items .rBrace (ifThen (.kind 0 [.javadoc, .ident]) enumValue (junk .enumValue))))

end DomainModel.Grammar
