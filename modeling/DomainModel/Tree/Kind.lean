/-
Kinds of tree nodes.

A node is one construct of a source text.  `junk` nodes hold what stands where no
construct can begin; their name is the one that stray characters have as tokens.
`Kind` joins the two classifications, tokens first, in the fixed order that gives every
kind its number.
-/
import DomainModel.Token.Kind

namespace DomainModel

inductive NodeKind where
  | sourceFile
  | globalJavadoc
  | suffixJavadoc
  | legacyConstant
  | importStatement
  | config
  | configOption
  | name
  | apiList
  | api
  | apiType
  | apiRole
  | apiConfig
  | pluginList
  | plugin
  | pluginDisabled
  | pluginOptions
  | pluginConfigOption
  | pluginCliOption
  | policies
  | policy
  | entity
  | input
  | output
  | event
  | tableName
  | declBody
  | field
  | fieldType
  | initialValue
  | validation
  | nestedField
  | enumeration
  | enumBody
  | enumValue
  | relationshipGroup
  | relationship
  | relationshipFrom
  | relationshipTo
  | relationshipField
  | relationshipDescription
  | service
  | legacyService
  | serviceAggregates
  | serviceMethod
  | methodParams
  | naturalId
  | paramId
  | methodParameter
  | methodReturn
  | withEvents
  | eventRef
  | eventGroup
  | aggregate
  | aggregateRoot
  | aggregateCommand
  | annotationNode
  | complexValue
  | literal
  | object
  | array
  | pair
  | arrayPlain
  | pairs
  | junk
  deriving DecidableEq, Repr, Inhabited

namespace NodeKind

/-- The kinds of constructs in their fixed order, junk left out. -/
def constructs : List NodeKind := [
  .sourceFile, .globalJavadoc, .suffixJavadoc, .legacyConstant, .importStatement, .config,
  .configOption, .name, .apiList, .api, .apiType, .apiRole, .apiConfig, .pluginList, .plugin,
  .pluginDisabled, .pluginOptions, .pluginConfigOption, .pluginCliOption, .policies, .policy,
  .entity, .input, .output, .event, .tableName, .declBody, .field, .fieldType, .initialValue,
  .validation, .nestedField, .enumeration, .enumBody, .enumValue, .relationshipGroup,
  .relationship, .relationshipFrom, .relationshipTo, .relationshipField, .relationshipDescription,
  .service, .legacyService, .serviceAggregates, .serviceMethod, .methodParams, .naturalId,
  .paramId, .methodParameter, .methodReturn, .withEvents, .eventRef, .eventGroup, .aggregate,
  .aggregateRoot, .aggregateCommand, .annotationNode, .complexValue, .literal, .object, .array, .pair,
  .arrayPlain, .pairs]

/-- The name a kind has in trees. -/
def label : NodeKind → String
  | .sourceFile => "SOURCE_FILE"
  | .globalJavadoc => "GLOBAL_JAVADOC"
  | .suffixJavadoc => "SUFFIX_JAVADOC"
  | .legacyConstant => "LEGACY_CONSTANT"
  | .importStatement => "IMPORT"
  | .config => "CONFIG"
  | .configOption => "CONFIG_OPTION"
  | .name => "NAME"
  | .apiList => "API_LIST"
  | .api => "API"
  | .apiType => "API_TYPE"
  | .apiRole => "API_ROLE"
  | .apiConfig => "API_CONFIG"
  | .pluginList => "PLUGIN_LIST"
  | .plugin => "PLUGIN"
  | .pluginDisabled => "PLUGIN_DISABLED"
  | .pluginOptions => "PLUGIN_OPTIONS"
  | .pluginConfigOption => "PLUGIN_CONFIG_OPTION"
  | .pluginCliOption => "PLUGIN_CLI_OPTION"
  | .policies => "POLICIES"
  | .policy => "POLICY"
  | .entity => "ENTITY"
  | .input => "INPUT"
  | .output => "OUTPUT"
  | .event => "EVENT"
  | .tableName => "TABLE_NAME"
  | .declBody => "DECL_BODY"
  | .field => "FIELD"
  | .fieldType => "FIELD_TYPE"
  | .initialValue => "INITIAL_VALUE"
  | .validation => "VALIDATION"
  | .nestedField => "NESTED_FIELD"
  | .enumeration => "ENUM"
  | .enumBody => "ENUM_BODY"
  | .enumValue => "ENUM_VALUE"
  | .relationshipGroup => "RELATIONSHIP_GROUP"
  | .relationship => "RELATIONSHIP"
  | .relationshipFrom => "RELATIONSHIP_FROM"
  | .relationshipTo => "RELATIONSHIP_TO"
  | .relationshipField => "RELATIONSHIP_FIELD"
  | .relationshipDescription => "RELATIONSHIP_DESCRIPTION"
  | .service => "SERVICE"
  | .legacyService => "LEGACY_SERVICE"
  | .serviceAggregates => "SERVICE_AGGREGATES"
  | .serviceMethod => "SERVICE_METHOD"
  | .methodParams => "METHOD_PARAMS"
  | .naturalId => "NATURAL_ID"
  | .paramId => "PARAM_ID"
  | .methodParameter => "METHOD_PARAMETER"
  | .methodReturn => "METHOD_RETURN"
  | .withEvents => "WITH_EVENTS"
  | .eventRef => "EVENT_REF"
  | .eventGroup => "EVENT_GROUP"
  | .aggregate => "AGGREGATE"
  | .aggregateRoot => "AGGREGATE_ROOT"
  | .aggregateCommand => "AGGREGATE_COMMAND"
  | .annotationNode => "ANNOTATION"
  | .complexValue => "COMPLEX_VALUE"
  | .literal => "LITERAL"
  | .object => "OBJECT"
  | .array => "ARRAY"
  | .pair => "PAIR"
  | .arrayPlain => "ARRAY_PLAIN"
  | .pairs => "PAIRS"
  | .junk => "ERROR"

end NodeKind

/-- The kind of a token or of a construct. -/
inductive Kind where
  | token (kind : TokenKind)
  | construct (kind : NodeKind)
  deriving DecidableEq, Repr

namespace Kind

/-- Every kind, in the order of their numbers. -/
def all : List Kind := TokenKind.all.map token ++ NodeKind.constructs.map construct

def label : Kind → String
  | .token k => k.label
  | .construct k => k.label

/-- The kind with a number; there is none beyond the last. -/
def ofNumber? (n : Nat) : Option Kind := all[n]?

def ofLabel? (label : String) : Option Kind := all.find? (·.label == label)

def number (k : Kind) : Nat := all.idxOf k

def isTrivia : Kind → Bool
  | .token k => k.isTrivia
  | .construct _ => false

def isPunctuation : Kind → Bool
  | .token k => k.isPunctuation
  | .construct _ => false

def isLiteral : Kind → Bool
  | .token k => k.isLiteral
  | .construct _ => false

def isConstruct : Kind → Bool
  | .token _ => false
  | .construct _ => true

end Kind

end DomainModel
