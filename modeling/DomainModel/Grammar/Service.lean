/-
Relationships, services and aggregates.

Both ends of a relationship look alike; what stands before the word `to` is the first
one, and either may be missing.  Methods of services and commands of aggregates look alike
too, but only a method returns something.
-/
import DomainModel.Grammar.Declaration

namespace DomainModel.Grammar

open Rule

def relationshipField : Rule :=
  ifThen (.next .lBrace)
    (node .relationshipField
      (take ++ name ++
        ifThen (.next .lParen)
          (node .relationshipDescription (take ++ name ++ expect .rParen)) nothing ++
        validations ++ expect .rBrace))
    nothing

def relationshipEnd (kind : NodeKind) : Rule := node kind (preamble ++ name ++ relationshipField)

def relationshipEndAhead : Test :=
  .either (.kind 0 [.javadoc, .atSign])
    (.both (.next .ident) (.negation (.nextWord "to")))

def relationship : Rule :=
  node .relationship
    (ifThen relationshipEndAhead (relationshipEnd .relationshipFrom) nothing ++
      ifThen (.nextWord "to")
        (take ++ ifThen relationshipEndAhead (relationshipEnd .relationshipTo) nothing)
        (missing (.keyword "to")) ++
      accept .comma)

def relationshipGroup : Rule :=
  node .relationshipGroup
    (take ++ name ++ expect .lBrace ++
      items .rBrace
        (ifThen (.either relationshipEndAhead (.nextWord "to")) relationship
          (junk .relationship)) ++
      expect .rBrace)

/-- The parameters of a method: `@natural`, `id` and the name of a type, each optional. -/
def methodParams : Rule :=
  node .methodParams
    (ifThen (.next .lParen)
      (take ++
        ifThen (.both (.next .atSign) (.word 1 ["natural"])) (node .naturalId (take ++ take))
          nothing ++
        ifThen (.nextWord "id") (single .paramId ++ accept .comma) nothing ++
        ifThen (.next .ident) (single .methodParameter) nothing ++
        expect .rParen)
      (missing (.token .lParen)))

/-- An identifier that a parenthesis does not make the name of the next method. -/
def plainWordAhead : Test := .both (.next .ident) (.negation (.second .lParen))

def methodReturn : Rule :=
  ifThen (.both plainWordAhead (.negation (.nextWord "withEvents")))
    (node .methodReturn (take ++ brackets (accept .question))) nothing

/-- The alternatives of a group, separated by bars or commas.  The separator decides
whether another one may follow. -/
def eventGroup : Rule :=
  node .eventGroup
    (take ++
      ifThen (.next .ident)
        (single .eventRef ++
          whileDo (.both (.kind 0 [.pipe, .comma]) (.second .ident))
            (take ++ single .eventRef) ++
          ifThen (.kind 0 [.pipe, .comma]) take nothing)
        nothing ++
      expect .rBracket)

def withEvents : Rule :=
  ifThen (.nextWord "withEvents")
    (node .withEvents
      (take ++
        whileDo (.either plainWordAhead (.next .lBracket))
          (ifThen (.next .ident) (single .eventRef) eventGroup)))
    nothing

/-- A method or a command; `result` is what may stand between parameters and events. -/
def method (kind : NodeKind) (result : Rule) : Rule :=
  node kind (preamble ++ name ++ methodParams ++ result ++ withEvents ++ suffixJavadoc)

def methods (kind : NodeKind) (result : Rule) : Rule :=
  braced
    (items .rBrace
      (ifThen (.kind 0 [.javadoc, .atSign, .ident]) (method kind result) (junk .method)))

def serviceAggregates : Rule :=
  node .serviceAggregates
    (name ++ whileDo (.both (.next .comma) (.second .ident)) (take ++ name))

/-- A service, behind its keyword. -/
def serviceRest : Rule :=
  name ++
    ifThen (.nextWord "for")
      (take ++ expect .lParen ++ serviceAggregates ++ expect .rParen) nothing ++
    methods .serviceMethod methodReturn

def legacyService : Rule :=
  node .legacyService (take ++ serviceAggregates ++ expectWord "with" ++ name)

/-- An aggregate, behind its keyword. -/
def aggregateRest : Rule :=
  name ++
    ifThen (.next .lParen)
      (take ++ identifier .aggregateRoot .aggregateRoot ++ expect .rParen)
      (missing (.token .lParen)) ++
    methods .aggregateCommand nothing

end DomainModel.Grammar
