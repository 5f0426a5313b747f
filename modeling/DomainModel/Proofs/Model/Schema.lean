/-
What a document looks like.

Whoever reads a document relies on its form: the keys at the top, a name in every node that
is the name it is stored under, and one fixed row of keys for declarations and one for
fields.  `Document.Regular` asks for all of it at once.  It is kept by classification, which
sets flags that every field has already (`Model.classify_regular`).
-/
import DomainModel.Proofs.Check.Classification
import DomainModel.Proofs.Value.Dict

namespace DomainModel

/-! ### Nodes -/

/-- A mapping that says the name it is stored under. -/
def Named (name : String) (v : Value) : Prop :=
  ∃ node, v = .map node ∧ Dict.get? node "name" = some (.string name)

/-- A value with a mapping at `slot`, in which every entry is as `P` says. -/
def Keeps (P : String → Value → Prop) (slot : String) (v : Value) : Prop :=
  ∃ entries, v.get? slot = some (.map entries) ∧ ∀ e ∈ entries, P e.1 e.2

/-- The keys of a field, in order. -/
def keysOfField : List String :=
  ["name", "type", "initialValue", "javadoc", "comment", "isEnum", "isEntity", "isInput",
    "isOutput", "isEvent", "isArray", "isComplexType", "options", "optionsList", "validations"]

/-- The keys of a declaration with fields, in order. -/
def keysOfDeclaration : List String :=
  ["name", "type", "className", "tableName", "instanceName", "classNamePlural",
    "instanceNamePlural", "kebabCase", "kebabCasePlural", "javadoc", "options", "optionsList",
    "fields"]

structure IsField (name : String) (v : Value) : Prop where
  named : Named name v
  keys : v.map?.map Dict.keys = some keysOfField
  comment : v.get? "comment" = v.get? "javadoc"
  validations : Keeps Named "validations" v

structure IsDeclaration (c : Collection) (name : String) (v : Value) : Prop where
  named : Named name v
  keys : v.map?.map Dict.keys = some keysOfDeclaration
  type : v.get? "type" = some (.string c.key)
  fields : Keeps IsField "fields" v

/-- A method or a command, with the name of what holds it at `key`. -/
structure IsOperation (key owner name : String) (v : Value) : Prop where
  named : Named name v
  owner : v.get? key = some (.string owner)

/-- A relationship; an end that is missing has no checks. -/
structure IsRelationship (name : String) (v : Value) : Prop where
  named : Named name v
  validations : ∀ slot ∈ ["fromValidations", "toValidations"], (v.get? slot).isSome →
    Keeps Named slot v

/-- What may stand in a collection under a name.  A setting has any value, even none; a
constant is text; all else is a mapping, so that no name is only reserved. -/
def Collection.Admits (c : Collection) (name : String) (v : Value) : Prop :=
  match c with
  | .config => True
  | .constants => ∃ text, v = .string text
  | .apis | .plugins | .policies => Named name v
  | .aggregates => Named name v ∧ Keeps (IsOperation "aggregateName" name) "commands" v
  | .services => Named name v ∧ Keeps (IsOperation "serviceName" name) "methods" v
  | .entities | .inputs | .outputs | .events => IsDeclaration c name v
  | .enums => Named name v ∧ Keeps Named "values" v
  | .relationships => ∃ group, v = .map group ∧ ∀ r ∈ group, IsRelationship r.1 r.2

/-- The keys at the top of every document, in order. -/
def Document.rootKeys : List String :=
  ["imports", "config", "apis", "plugins", "policies", "aggregates", "entities", "enums",
    "relationships", "services", "inputs", "outputs", "events", "constants"]

structure Document.Regular (d : Document) : Prop where
  keys : rootKeys <+: Dict.keys d.entries
  imports : ∃ items, d.toValue.get? "imports" = some (.list items)
  collections : ∀ c : Collection, Keeps c.Admits c.key d.toValue
  /-- The combined view shows what is in the collections. -/
  combined : ∀ all, d.allEntitiesAndEnums = some all →
    ∀ e ∈ all, ∃ kind : SymbolKind, e ∈ d.collection kind.collection

/-- Only what stands in the collections can be out of order. -/
theorem Document.regular_of {d : Document}
    (h : ∀ c, ∀ e ∈ d.collection c, Collection.Admits c e.1 e.2)
    (hall : ∀ all, d.allEntitiesAndEnums = some all →
      ∀ e ∈ all, ∃ kind : SymbolKind, e ∈ d.collection kind.collection) : d.Regular where
  keys := by
    rw [Document.entries, List.append_assoc, Dict.keys, List.map_append]
    exact List.prefix_append ..
  imports := ⟨d.imports, rfl⟩
  collections c := ⟨d.collection c, Document.get?_key d c, h c⟩
  combined := hall

theorem Document.Regular.admits {d : Document} (h : d.Regular) (c : Collection) :
    ∀ e ∈ d.collection c, c.Admits e.1 e.2 := by
  obtain ⟨entries, hentries, hall⟩ := h.collections c
  obtain rfl := Value.map.inj (Option.some.inj ((Document.get?_key ..).symm.trans hentries))
  exact hall

/-! ### Classification -/

namespace Classification

/-- The flags that classification sets. -/
def flagKeys : List String :=
  ["isEntity", "isEnum", "isInput", "isOutput", "isEvent", "isComplexType"]

/-- What classification writes into a field of some type. -/
def marks (symbols : SymbolTable) (type : Option String) : Members :=
  (flags symbols type).map (fun m => (m.1, .bool m.2)) ++
    [("isComplexType", .bool ((flags symbols type).any (·.2)))]

theorem keys_marks (symbols : SymbolTable) (type : Option String) :
    Dict.keys (marks symbols type) = flagKeys := rfl

theorem nodup_marks (symbols : SymbolTable) (type : Option String) :
    (Dict.keys (marks symbols type)).Nodup := by
  rw [keys_marks]
  decide

theorem field_eq_extend (symbols : SymbolTable) (node : Members) : field symbols node =
    Dict.extend node (marks symbols ((Dict.get? node "type").bind Value.string?)) := by
  rw [marks, Dict.extend_concat, Dict.extend, List.foldl_map]
  rfl

/-- A field with all flags keeps its keys. -/
theorem keys_field {symbols : SymbolTable} {node : Members}
    (h : ∀ key ∈ flagKeys, key ∈ Dict.keys node) :
    Dict.keys (field symbols node) = Dict.keys node := by
  rw [field_eq_extend]
  exact Dict.keys_extend_of_subset (keys_marks .. ▸ h)

/-- What is no flag stays as it is. -/
theorem get?_field_other (symbols : SymbolTable) (node : Members) {key : String}
    (h : key ∉ flagKeys) : Dict.get? (field symbols node) key = Dict.get? node key := by
  rw [field_eq_extend, Dict.get?_extend_of_nodup (nodup_marks ..),
    Dict.get?_eq_none_iff.mpr (keys_marks .. ▸ h), Option.none_or]

theorem isField_field {symbols : SymbolTable} {name : String} {v : Value} (h : IsField name v) :
    IsField name (onMap (field symbols) v) := by
  obtain ⟨⟨node, rfl, hname⟩, hkeys, hcomment, checks, hchecks, hnamed⟩ := h
  have hrow : Dict.keys node = keysOfField := Option.some.inj hkeys
  have hsame : ∀ key ∉ flagKeys, Dict.get? (field symbols node) key = Dict.get? node key :=
    fun key => get?_field_other symbols node
  refine ⟨⟨_, rfl, ?_⟩, ?_, ?_, checks, ?_, hnamed⟩
  · rw [hsame "name" (by decide), hname]
  · show some (Dict.keys (field symbols node)) = _
    rw [keys_field (hrow ▸ by decide), hrow]
  · show Dict.get? (field symbols node) "comment" = Dict.get? (field symbols node) "javadoc"
    rw [hsame "comment" (by decide), hsame "javadoc" (by decide)]
    exact hcomment
  · exact (hsame "validations" (by decide)).trans hchecks

theorem isDeclaration_declaration {symbols : SymbolTable} {c : Collection} {name : String}
    {v : Value} (h : IsDeclaration c name v) : IsDeclaration c name (declaration symbols v) := by
  obtain ⟨⟨node, rfl, hname⟩, hkeys, htype, fields, hfields, hall⟩ := h
  have hother : ∀ key ≠ "fields",
      (declaration symbols (.map node)).get? key = (Value.map node).get? key := fun key hkey => by
    rw [get?_declaration, if_neg hkey]
  refine ⟨⟨_, rfl, ?_⟩, ?_, ?_, onValues (onMap (field symbols)) fields, ?_, ?_⟩
  · exact (hother "name" (by decide)).trans hname
  · exact (congrArg some (Dict.keys_modify ..)).trans hkeys
  · exact (hother "type" (by decide)).trans htype
  · rw [get?_declaration, if_pos rfl, hfields]
    rfl
  · intro e he
    obtain ⟨e, hmem, rfl⟩ := List.mem_map.mp he
    exact isField_field (hall e hmem)

/-- The combined view is made of the collections. -/
theorem mem_combined {d : Document} {e : String × Value} (h : e ∈ combined d) :
    ∃ kind : SymbolKind, e ∈ d.collection kind.collection := by
  have hfold : ∀ (kinds : List SymbolKind) (all : Members),
      e ∈ kinds.foldl (fun all kind => Dict.extend all (d.collection kind.collection)) all →
        e ∈ all ∨ ∃ kind : SymbolKind, e ∈ d.collection kind.collection := by
    intro kinds
    induction kinds with
    | nil => exact fun _ hmem => .inl hmem
    | cons kind kinds ih =>
        intro all hmem
        rcases ih _ hmem with hmem | hmem
        · exact (Dict.mem_extend hmem).imp_right fun hmem => ⟨kind, hmem⟩
        · exact .inr hmem
  exact (hfold _ _ h).resolve_left List.not_mem_nil

end Classification

/-- **Classification keeps a document as it has to look.** -/
theorem Model.classify_regular {m : Model} (hregular : m.document.Regular)
    (hdecls : ∀ c ∈ Collection.withFields, Classification.Declarations (m.document.collection c)) :
    m.classify.document.Regular := by
  refine Document.regular_of (fun c e he => ?_) fun all hall e he => ?_
  · rw [Classification.collection_classify hdecls] at he
    split at he
    · rename_i hc
      obtain ⟨e, hmem, rfl⟩ := List.mem_map.mp he
      have hold := hregular.admits c e hmem
      cases c <;> first
        | exact Classification.isDeclaration_declaration hold
        | exact absurd hc (by decide)
    · exact hregular.admits c e he
  · obtain rfl := Option.some.inj hall
    obtain ⟨kind, hmem⟩ := Classification.mem_combined he
    exact ⟨kind, by cases kind <;> exact hmem⟩

end DomainModel
