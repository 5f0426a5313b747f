/-
Names, values and annotations.

A value is a literal, an object in braces or an array in brackets.  Where an option has a
value of its own the brackets may be left out: pairs separated by commas make an object
and literals separated by commas an array.
-/
import DomainModel.Grammar.Rule

namespace DomainModel.Grammar

open Rule

def name : Rule := identifier .name .name

def literal : Rule := ifThen .simple (single .literal) (missing .value)

/-- A key with a colon behind it. -/
def pairAhead : Test := .both (.kind 0 [.ident, .string]) (.second .colon)

def pair : Rule := node .pair (literal ++ expect .colon ++ call .value)

/-- The rule of the nonterminal `value`. -/
def value : Rule :=
  ifThen (.next .lBrace)
    (node .object (take ++ whileDo pairAhead (pair ++ accept .comma) ++ expect .rBrace))
    (ifThen (.next .lBracket)
      (node .array (take ++
        items .rBracket
          (ifThen (.either .simple (.kind 0 [.lBrace, .lBracket]))
            (call .value ++ accept .comma) (junk .value)) ++
        expect .rBracket))
      literal)

/-- A value whose brackets may be missing. -/
def complexValue : Rule :=
  node .complexValue
    (ifThen pairAhead
      (node .pairs (pair ++ whileDo (.both (.next .comma) (.kind 2 [.colon])) (take ++ pair)))
      (ifThen (.both .simple (.second .comma))
        (node .arrayPlain (literal ++ whileDo (.next .comma) (take ++ literal)))
        (call .value)))

def atOption : Rule :=
  node .annotationNode
    (take ++ expect .ident ++
      ifThen (.next .lParen) (take ++ complexValue ++ expect .rParen) nothing)

def annotations : Rule := whileDo (.next .atSign) atOption

/-- What may precede a construct: a doc comment, then annotations. -/
def preamble : Rule := accept .javadoc ++ annotations

/-- A doc comment that ends the line of what it describes. -/
def suffixJavadoc : Rule :=
  ifThen (.both (.next .javadoc) .sameLine) (single .suffixJavadoc) nothing

end DomainModel.Grammar
