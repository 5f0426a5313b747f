/-
Names are derived for show.

Two analyses of one text under different namings are the same in everything that anything else
depends on.  Classification, the table of names and the checks read the nodes of a document
under keys that are not derived (`derivedKeys_subset`), so they read the same in both, and what
they leave behind stays the same but for what is derived.  `analyze_naming` puts that together
with what is known of the documents that are built.
-/
import DomainModel.Proofs.Build.Naming
import DomainModel.Proofs.Check.Frame
import DomainModel.Proofs.Check.Order

namespace DomainModel

open Direct

/-- Every key that a derived name may stand at. -/
def formKeys : List String := derivedKeys none

theorem derivedKeys_subset (table : Option String) : derivedKeys table ⊆ formKeys := by
  cases table <;> simp [formKeys, derivedKeys]

theorem derived_subset (parent : Option Tree) (kind : NodeKind) (t : Tree) :
    derived parent kind t ⊆ formKeys := by
  cases kind <;> first
    | exact derivedKeys_subset _
    | simp [derived, formKeys, derivedKeys]

theorem derivedAt_subset (t : Tree) (c : Collection) (name : String) :
    derivedAt t c name ⊆ formKeys := by
  rw [derivedAt]
  cases kept? c name t with
  | none => exact List.nil_subset _
  | some s => exact derived_subset _ _ _

/-- Declarations with the same names in the same order, and the same but for derived names. -/
abbrev SameRows (m m' : Members) : Prop := Dict.Rel (fun _ => Value.EqualBut formKeys) m m'

/-- What is collected from declarations without their derived names is the same. -/
theorem flatMap_sameRows {α : Type} {m m' : Members} (h : SameRows m m')
    {f g : String × Value → List α}
    (hfg : ∀ name v w, v.EqualBut formKeys w → f (name, v) = g (name, w)) :
    m.flatMap f = m'.flatMap g := by
  refine flatMap_eq_of_forall₂ h ?_
  rintro ⟨name, v⟩ ⟨_, w⟩ ⟨rfl, hvw⟩
  exact hfg name v w hvw

/-! ### Names -/

theorem ofDocument_sameRows {d d' : Document}
    (h : ∀ c, SameRows (d.collection c) (d'.collection c)) :
    SymbolTable.ofDocument d = SymbolTable.ofDocument d' := by
  refine List.foldl_ext _ _ _ fun t kind _ => ?_
  refine foldl_eq_of_forall₂ (h kind.collection) (fun t e e' he => ?_) t
  obtain ⟨hname, hnode⟩ := he
  have hoptions : e.2.get? "options" = e'.2.get? "options" := hnode.get? (by decide)
  have hmarks : SymbolTable.marksAggregate e.2 = SymbolTable.marksAggregate e'.2 := by
    rw [SymbolTable.marksAggregate, SymbolTable.marksAggregate, hoptions]
  rw [SymbolTable.enter, SymbolTable.enter, hname, hmarks]

/-! ### Checks -/

namespace Validation

variable {v w : Value} {m m' : Members} (o : Options) (s : SymbolTable)

theorem entriesAt_equalBut (h : v.EqualBut formKeys w) {key : String} (hkey : key ∉ formKeys) :
    v.entriesAt key = w.entriesAt key := by
  rw [Value.entriesAt, Value.entriesAt, h.get? hkey]

theorem itemsAt_equalBut (h : v.EqualBut formKeys w) {key : String} (hkey : key ∉ formKeys) :
    v.itemsAt key = w.itemsAt key := by
  rw [Value.itemsAt, Value.itemsAt, h.get? hkey]

theorem apis_sameRows (h : SameRows m m') : apis m = apis m' :=
  flatMap_sameRows h fun name v w hvw => by
    dsimp only
    rw [hvw.getString? (by decide)]

theorem fields_sameRows (h : SameRows m m') (c : Collection) :
    fields o s c m = fields o s c m' :=
  flatMap_sameRows h fun name v w hvw => by
    dsimp only
    rw [entriesAt_equalBut hvw (by decide)]

theorem aggregates_sameRows (h : SameRows m m') : aggregates s m = aggregates s m' :=
  flatMap_sameRows h fun name v w hvw => by
    dsimp only
    rw [hvw.getString? (by decide), entriesAt_equalBut hvw (by decide)]

theorem services_sameRows (h : SameRows m m') : services s m = services s m' :=
  flatMap_sameRows h fun name v w hvw => by
    dsimp only
    rw [itemsAt_equalBut hvw (by decide), entriesAt_equalBut hvw (by decide)]

/-- **The checks find the same.** -/
theorem violations_sameRows {d d' : Document}
    (h : ∀ c, SameRows (d.collection c) (d'.collection c))
    (hrelationships : d.relationships = d'.relationships) :
    violations o s d = violations o s d' := by
  have hfields : (Collection.withFields.flatMap fun c => fields o s c (d.collection c)) =
      Collection.withFields.flatMap fun c => fields o s c (d'.collection c) :=
    List.flatMap_congr fun c _ => fields_sameRows o s (h c) c
  have hapis := apis_sameRows (h .apis)
  have haggregates := aggregates_sameRows s (h .aggregates)
  have hservices := services_sameRows s (h .services)
  simp only [Document.collection] at hapis haggregates hservices
  rw [violations, violations, hapis, hfields, haggregates, hservices, hrelationships]

end Validation

/-! ### Classification -/

/-- Documents that are equal but for what stands at some keys of the nodes that they hold.  The
combined views hold copies of such nodes. -/
structure Document.EqualBut (keys : Collection → String → List String) (d d' : Document) :
    Prop where
  imports : d.imports = d'.imports
  javadoc : d.javadoc = d'.javadoc
  relationships : d.relationships = d'.relationships
  collections : ∀ c, Dict.Rel (fun name => Value.EqualBut (keys c name)) (d.collection c)
    (d'.collection c)
  copies : Option.Rel (Dict.Rel fun name v w => ∃ c, (name, v) ∈ d.collection c ∧
    (name, w) ∈ d'.collection c ∧ v.EqualBut (keys c name) w)
    d.allEntitiesAndEnums d'.allEntitiesAndEnums

namespace Classification

theorem declaration_equalBut {keys : List String} {v w : Value} (h : v.EqualBut keys w)
    (hkey : "fields" ∉ keys) (symbols : SymbolTable) :
    (declaration symbols v).EqualBut keys (declaration symbols w) := by
  cases h with
  | refl => exact .refl _
  | map h => exact .map (h.modify hkey _)

theorem onValues_rel {R S : String → Value → Value → Prop} {m m' : Members}
    (h : Dict.Rel R m m') {f g : Value → Value}
    (hfg : ∀ name v w, R name v w → S name (f v) (g w)) :
    Dict.Rel S (onValues f m) (onValues g m') := by
  rw [onValues, onValues, Dict.Rel, List.forall₂_map_left_iff, List.forall₂_map_right_iff]
  exact List.Forall₂.imp (fun _ _ he => ⟨he.1, hfg _ _ _ he.2⟩) h

/-- **Classification leaves documents equal but for the same keys**, if no fields stand there. -/
theorem equalBut_classify {keys : Collection → String → List String} {m m' : Model}
    (hdecls : ∀ c ∈ Collection.withFields, Declarations (m.document.collection c))
    (hdecls' : ∀ c ∈ Collection.withFields, Declarations (m'.document.collection c))
    (hkeys : ∀ c name, "fields" ∉ keys c name)
    (hsymbols : SymbolTable.ofDocument m.document = SymbolTable.ofDocument m'.document)
    (h : m.document.EqualBut keys m'.document) :
    m.classify.document.EqualBut keys m'.classify.document := by
  obtain ⟨himports, hjavadoc⟩ := rest_classify hdecls
  obtain ⟨himports', hjavadoc'⟩ := rest_classify hdecls'
  have hcollections : ∀ c, Dict.Rel (fun name => Value.EqualBut (keys c name))
      (m.classify.document.collection c) (m'.classify.document.collection c) := by
    intro c
    rw [collection_classify hdecls, collection_classify hdecls', hsymbols]
    by_cases hc : c ∈ Collection.withFields
    · rw [if_pos hc, if_pos hc]
      exact onValues_rel (h.collections c) fun name _ _ hvw =>
        declaration_equalBut hvw (hkeys c name) _
    · rw [if_neg hc, if_neg hc]
      exact h.collections c
  have hrelationships : m.classify.document.relationships = m'.classify.document.relationships :=
    (collection_classify hdecls .relationships).trans
      (h.relationships.trans (collection_classify hdecls' .relationships).symm)
  refine ⟨?_, ?_, hrelationships, hcollections, ?_⟩
  · rw [himports, himports', h.imports]
  · rw [hjavadoc, hjavadoc', h.javadoc]
  · rw [allEntitiesAndEnums_classify, allEntitiesAndEnums_classify]
    exact .some (combined_rel Dict.rel_nil (fun _ _ _ _ => Dict.Rel.extend)
      fun c => (hcollections c).mem.imp fun _ _ _ hvw => ⟨c, hvw⟩)

end Classification

/-! ### Analyses -/

/-- What is built of a text is the same under any naming, but for derived names. -/
theorem model_naming {source : String} (hlacks : (parse source).tree.lacks .legacyService = true)
    (naming naming' : Naming) :
    (Direct.model naming source).locations = (Direct.model naming' source).locations ∧
    (Direct.model naming source).document.EqualBut (derivedAt (parse source).tree)
      (Direct.model naming' source).document := by
  have hdocument : ∀ naming, (Direct.model naming source).document =
      Direct.document ⟨naming, source.toList⟩ (parse source).tree :=
    fun naming => draft_document ⟨naming, source.toList⟩ (shaped_parse source)
  have hlocations : ∀ naming, (Direct.model naming source).locations =
      (({} : Draft).change (.recorded (recordsOf
        (changes ⟨naming, source.toList⟩ none none (parse source).tree)))).locations :=
    fun naming => locations_changes _ {}
  constructor
  · rw [hlocations naming, hlocations naming', recordsOf_naming naming naming' _ _ hlacks]
  · rw [hdocument, hdocument]
    refine ⟨rfl, rfl, rfl, fun c => ?_, .none⟩
    rw [Direct.document_collection, Direct.document_collection]
    exact collection_naming naming naming' _ hlacks c

/-- **Names are derived for show.**  Where no service leaves its methods to the naming, a text
has the same errors, locations, problems and names under any two namings, and its documents
are equal but for the keys whose values are derived: of a declaration the seven forms of its
name, without that of the table where the text gives one, and of an enum, a service or an
aggregate the name of its class. -/
theorem analyze_naming {source : String} (hlacks : (parse source).tree.lacks .legacyService = true)
    (options : Options) (naming naming' : Naming) :
    ∃ a a', analyze options naming source = .ok a ∧ analyze options naming' source = .ok a' ∧
      a.errors = a'.errors ∧ a.model.locations = a'.model.locations ∧
      a.model.problems = a'.model.problems ∧ a.model.symbols = a'.model.symbols ∧
      a.model.document.EqualBut (derivedAt (parse source).tree) a'.model.document := by
  obtain ⟨hlocations, hdocument⟩ := model_naming hlacks naming naming'
  have hsame : ∀ c, SameRows ((Direct.model naming source).document.collection c)
      ((Direct.model naming' source).document.collection c) := fun c =>
    (hdocument.collections c).imp fun name _ _ hvw => hvw.mono (derivedAt_subset _ c name)
  have hsymbols := ofDocument_sameRows hsame
  have hclassified := Classification.equalBut_classify (declarations_model naming source)
    (declarations_model naming' source)
    (fun c name hkey => absurd (derivedAt_subset _ c name hkey) (by decide)) hsymbols hdocument
  have hproblems : Violation.problem (Direct.model naming source).classify =
      Violation.problem (Direct.model naming' source).classify := by
    funext v
    show Violation.problem (Direct.model naming source) v =
      Violation.problem (Direct.model naming' source) v
    rw [Violation.problem, Violation.problem, Model.location?, Model.location?, hlocations]
  refine ⟨_, _, analyze_eq options naming source, analyze_eq options naming' source, rfl, ?_⟩
  dsimp only
  rw [validate_eq options rfl, validate_eq options rfl]
  refine ⟨hlocations, ?_, congrArg some hsymbols, hclassified⟩
  dsimp only
  rw [hproblems, hsymbols, Validation.violations_sameRows options _ (fun c =>
    (hclassified.collections c).imp fun name _ _ hvw => hvw.mono (derivedAt_subset _ c name))
    hclassified.relationships]

/-- The table of an entity has a name of its own and that of the block in it has not, so only
the latter is derived. -/
theorem analyze_naming_tables :
    let source := "entity A (t) \x7b b B \x7b c C \x7d \x7d"
    let tree := (parse source).tree
    let plain : Naming := ⟨(· ++ "s"), id, id, id, id, none⟩
    tree.lacks .legacyService = true ∧ derivedAt tree .entities "A" ++ ["tableName"] = formKeys ∧
      derivedAt tree .entities "B" = formKeys ∧
      ∃ a a', analyze {} .english source = .ok a ∧ analyze {} plain source = .ok a' ∧
        a.model.problems = a'.model.problems ∧ a.model.symbols = a'.model.symbols ∧
        a.model.document.EqualBut (derivedAt tree) a'.model.document := by
  intro source tree plain
  have hlacks : tree.lacks .legacyService = true := by decide +kernel
  obtain ⟨a, a', ha, ha', -, -, hproblems, hsymbols, hdocument⟩ :=
    analyze_naming hlacks {} .english plain
  refine ⟨hlacks, ?_, ?_, a, a', ha, ha', hproblems, hsymbols, hdocument⟩
  all_goals decide +kernel

end DomainModel
