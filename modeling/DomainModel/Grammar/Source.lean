/-
Whole source texts.

A text is a row of members.  Which member begins is seen from its first three words; only
a declaration may hide its keyword behind a doc comment and annotations, so the kind of
its node is settled when those have been read.  What begins no member is set aside token
by token, so reading always reaches the end.
-/
import DomainModel.Grammar.Service
import DomainModel.Token.Lexer

namespace DomainModel.Grammar

open Rule

def legacyConstant : Rule := node .legacyConstant (name ++ expect .equals ++ literal)

def importStatement : Rule :=
  node .importStatement (take ++ take ++ expect .lParen ++ literal ++ expect .rParen)

/-- A name with a value, and perhaps a semicolon. -/
def setting (kind : NodeKind) : Rule := node kind (name ++ complexValue ++ accept .semicolon)

/-- Settings of one kind up to the closing brace. -/
def settingOr (kind : NodeKind) (what : Expectation) : Rule :=
  ifThen (.next .ident) (setting kind) (junk what)

def api : Rule :=
  node .api
    (preamble ++ identifier .apiType .apiType ++
      ifThen (.next .lParen)
        (take ++ ifThen (.next .ident) (single .apiRole) nothing ++ expect .rParen) nothing ++
      name ++ braced (items .rBrace (settingOr .apiConfig .apiConfigOption)))

/-- A keyword with a block behind it. -/
def block (kind : NodeKind) (item : Rule) : Rule :=
  node kind (take ++ expect .lBrace ++ items .rBrace item ++ expect .rBrace)

def apiList : Rule :=
  block .apiList (ifThen (.kind 0 [.javadoc, .atSign, .ident]) api (junk .api))

/-- A flag with two hyphens.  A word behind it is its value only where the next option or
the end of the block follows. -/
def pluginCliOption : Rule :=
  node .pluginCliOption
    (take ++ name ++
      ifThen
        (.either (.kind 0 [.string, .integer, .decimal])
          (.both (.next .ident) (.kind 1 [.minusMinus, .rBrace])))
        literal nothing)

def plugin : Rule :=
  node .plugin
    (accept .javadoc ++
      ifThen (.both (.nextWord "disabled") (.second .ident)) (single .pluginDisabled) nothing ++
      name ++
      ifThen (.next .lParen)
        (node .pluginOptions
          (take ++ expectWord "inherit" ++ expect .colon ++ literal ++ expect .rParen))
        nothing ++
      braced
        (items .rBrace
          (ifThen (.next .minusMinus) pluginCliOption
            (settingOr .pluginConfigOption .pluginOption))))

def pluginList : Rule :=
  block .pluginList (ifThen (.kind 0 [.javadoc, .ident]) plugin (junk .plugin))

/-- A word with an opening bracket of some kind behind it. -/
def opens (word : String) (bracket : TokenKind) : Test :=
  .both (.nextWord word) (.second bracket)

def config : Rule :=
  block .config
    (ifThen (opens "plugins" .lBrace) pluginList (settingOr .configOption .configOption))

def policy : Rule := node .policy (name ++ literal ++ accept .semicolon)

def policies : Rule :=
  node .policies
    (take ++ expect .lParen ++ name ++ expect .rParen ++ expect .lBrace ++
      items .rBrace (ifThen (.next .ident) policy (junk .policy)) ++ expect .rBrace)

/-- The keywords of declarations. -/
def declarationKeywords : List (String × NodeKind) :=
  [("entity", .entity), ("input", .input), ("output", .output), ("event", .event),
    ("enum", .enumeration), ("service", .service), ("aggregate", .aggregate)]

/-- What follows preamble and keyword in a declaration of each kind; a node of junk
reads `stray`. -/
def declarationRest (stray : Rule) : NodeKind → Rule
  | .entity => take ++ name ++ tableName ++ declBody
  | .input | .output | .event => take ++ name ++ declBody
  | .enumeration => take ++ name ++ enumBody
  | .service => take ++ serviceRest
  | .aggregate => take ++ aggregateRest
  | _ => missing .declaration ++ stray

/-- A declaration.  A doc comment on its own is left standing; annotations without a
keyword behind them, or a word that is no keyword, are junk. -/
def declaration : Rule :=
  ifThen (.both (.next .javadoc) (.negation (.second .atSign)))
    (headed take declarationKeywords none (declarationRest nothing))
    (ifThen (.kind 0 [.javadoc, .atSign])
      (headed preamble declarationKeywords (some .junk) (declarationRest nothing))
      (headed nothing declarationKeywords (some .junk) (declarationRest take)))

def member : Rule :=
  ifThen (.both (.next .ident) (.second .equals)) legacyConstant <|
  ifThen (.both (.next .atSign) (.word 1 ["import"])) importStatement <|
  ifThen (opens "config" .lBrace) config <|
  ifThen (opens "apis" .lBrace) apiList <|
  ifThen (opens "plugins" .lBrace) pluginList <|
  ifThen (opens "policies" .lParen) policies <|
  ifThen (.nextWord "relationship") relationshipGroup <|
  ifThen (.both (.nextWord "service") (.either (.kind 2 [.comma]) (.word 2 ["with"])))
    legacyService <|
  ifThen (.kind 0 [.javadoc, .atSign, .ident]) declaration
    (junk .declaration)

/-- The doc comment of the whole text: one in front that a blank line sets off, or that is
all there is. -/
def globalJavadoc : Rule :=
  ifThen (.both (.next .javadoc) (.either (.breaksBehind 2) (.ends 1)))
    (single .globalJavadoc) nothing

def source : Rule :=
  globalJavadoc ++ whileDo (.negation (.ends 0)) member ++ trivia

/-- The rules of the nonterminals. -/
def rules : Nonterminal → Rule
  | .field => field
  | .value => value

/-- Reads a whole row of tokens. -/
def readSource (ts : List Token) : Reading := source.read (enter rules ts.length) ts

end DomainModel.Grammar

namespace DomainModel

/-- A complaint as it is reported: a text and the bytes it is about, which are the token
found or the end of the source. -/
structure SyntaxError where
  message : String
  range : Range
  deriving DecidableEq, Repr

def Complaint.report (sourceLength : Nat) (c : Complaint) : SyntaxError :=
  ⟨c.expected.message, (c.found.map Token.range).getD ⟨sourceLength, sourceLength⟩⟩

/-- A parsed source text. -/
structure Parse where
  tree : Tree
  complaints : List Complaint

/-- Parses a source text; every text has a tree. -/
def parse (source : String) : Parse :=
  let reading := Grammar.readSource (scan source)
  ⟨.node .sourceFile reading.trees, reading.complaints⟩

/-- The errors of a source text, in the order of reading. -/
def Parse.errors (p : Parse) (source : String) : List SyntaxError :=
  p.complaints.map (·.report source.utf8ByteSize)

end DomainModel
