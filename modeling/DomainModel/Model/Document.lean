/-
Documents.

A document is what a source text means: the imports, and one mapping for every collection
of named things.  Two parts come later or not at all: the doc comment of the whole text,
and the combined view of everything that can be a type.  `Document.toValue` lays it out
as one value, with the keys in a fixed order.
-/
import DomainModel.Value.Path

namespace DomainModel

/-- The collections of a document. -/
inductive Collection where
  | config
  | apis
  | plugins
  | policies
  | aggregates
  | entities
  | enums
  | relationships
  | services
  | inputs
  | outputs
  | events
  | constants
  deriving DecidableEq, Repr, Inhabited

namespace Collection

/-- The collections in the order of the document. -/
def all : List Collection :=
  [.config, .apis, .plugins, .policies, .aggregates, .entities, .enums, .relationships,
    .services, .inputs, .outputs, .events, .constants]

def key : Collection → String
  | config => "config"
  | apis => "apis"
  | plugins => "plugins"
  | policies => "policies"
  | aggregates => "aggregates"
  | entities => "entities"
  | enums => "enums"
  | relationships => "relationships"
  | services => "services"
  | inputs => "inputs"
  | outputs => "outputs"
  | events => "events"
  | constants => "constants"

end Collection

structure Document where
  imports : List Value := []
  config : Members := []
  apis : Members := []
  plugins : Members := []
  policies : Members := []
  aggregates : Members := []
  entities : Members := []
  enums : Members := []
  relationships : Members := []
  services : Members := []
  inputs : Members := []
  outputs : Members := []
  events : Members := []
  constants : Members := []
  javadoc : Option String := none
  allEntitiesAndEnums : Option Members := none
  deriving Inhabited

namespace Document

def empty : Document := {}

def collection (d : Document) : Collection → Members
  | .config => d.config
  | .apis => d.apis
  | .plugins => d.plugins
  | .policies => d.policies
  | .aggregates => d.aggregates
  | .entities => d.entities
  | .enums => d.enums
  | .relationships => d.relationships
  | .services => d.services
  | .inputs => d.inputs
  | .outputs => d.outputs
  | .events => d.events
  | .constants => d.constants

/-- Changes one collection. -/
def update (d : Document) (c : Collection) (f : Members → Members) : Document :=
  match c with
  | .config => { d with config := f d.config }
  | .apis => { d with apis := f d.apis }
  | .plugins => { d with plugins := f d.plugins }
  | .policies => { d with policies := f d.policies }
  | .aggregates => { d with aggregates := f d.aggregates }
  | .entities => { d with entities := f d.entities }
  | .enums => { d with enums := f d.enums }
  | .relationships => { d with relationships := f d.relationships }
  | .services => { d with services := f d.services }
  | .inputs => { d with inputs := f d.inputs }
  | .outputs => { d with outputs := f d.outputs }
  | .events => { d with events := f d.events }
  | .constants => { d with constants := f d.constants }

/-- The keys and values of a document at its top. -/
def entries (d : Document) : Members :=
  [("imports", .list d.imports)] ++
    Collection.all.map (fun c => (c.key, .map (d.collection c))) ++
    (d.javadoc.map fun text => ("javadoc", Value.string text)).toList ++
    (d.allEntitiesAndEnums.map fun all => ("allEntitiesAndEnums", Value.map all)).toList

def toValue (d : Document) : Value := .map d.entries

/-- Puts a value in the place of the one at a path, if that lies in a collection. -/
def replaceAt (d : Document) (path : String) (v : Value) : Document :=
  match Path.steps path with
  | [] => d
  | key :: rest =>
    match Collection.all.find? (·.key == key) with
    | none => d
    | some c => d.update c fun m => (((Value.map m).replace? v rest).bind Value.map?).getD m

end Document

end DomainModel
