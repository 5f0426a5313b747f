/-
Two views of the declared names.

A classified model shows its names twice: in the symbol table, which says for what kind of
declaration a name stands as a type, and in the combined view, which shows the declaration
itself.  The two are filled in different orders and by different means, but they follow one
rule: of the entities, enums, inputs and outputs of a name the last kind counts.
`lookup?_eq_find?` and `get?_combined` bring both into the same form, a search through the
kinds from the last to the first, and `Document.Shows` says what they have in common.
Aggregates are shown in the combined view where nothing else has their name.
-/
import DomainModel.Proofs.Build.Names
import DomainModel.Proofs.Check.Frame

namespace DomainModel

namespace SymbolKind

/-- The kinds whose names are types; the last one that declares a name counts. -/
def types : List SymbolKind := [.entity, .enumeration, .input, .output]

/-- The kinds that are shown together, in the order of their names. -/
def shown : List SymbolKind := .aggregate :: types

end SymbolKind

namespace Document

/-- Is a name declared under a kind? -/
def declares (d : Document) (name : String) (kind : SymbolKind) : Bool :=
  (Dict.keys (d.collection kind.collection)).contains name

/-- A kind declares a name, and no kind that stands later in the row does. -/
def LastOf (d : Document) (kinds : List SymbolKind) (name : String) (kind : SymbolKind) : Prop :=
  ∃ before after, kinds = before ++ kind :: after ∧
    name ∈ Dict.keys (d.collection kind.collection) ∧
    ∀ later ∈ after, name ∉ Dict.keys (d.collection later.collection)

/-- Every declared name with its kind. -/
def declaredPairs (d : Document) : List (SymbolKind × String) :=
  SymbolKind.all.flatMap fun kind => (Dict.keys (d.collection kind.collection)).map (kind, ·)

/-- A symbol table and a combined view show the names of a document, and they agree. -/
structure Shows (d : Document) (symbols : SymbolTable) (all : Members) : Prop where
  /-- As a type a name stands for the last kind that declares it. -/
  lookup : ∀ name kind, symbols.lookup? name = some kind ↔ d.LastOf SymbolKind.types name kind
  /-- What a name stands for is what the combined view shows. -/
  found : ∀ name kind, symbols.lookup? name = some kind →
    ∃ node, Dict.get? (d.collection kind.collection) name = some node ∧
      Dict.get? all name = some node
  /-- A name that is no type is shown if it names an aggregate. -/
  missing : ∀ name, symbols.lookup? name = none →
    (name ∈ Dict.keys all ↔ name ∈ Dict.keys d.aggregates) ∧
      Dict.get? all name = Dict.get? d.aggregates name
  order : Dict.keys all =
    (SymbolKind.shown.flatMap fun kind => Dict.keys (d.collection kind.collection)).eraseDups
  distinct : d.declaredPairs.Nodup
  size : symbols.size = d.declaredPairs.length

variable {d : Document}

theorem declares_iff {name : String} {kind : SymbolKind} :
    d.declares name kind = true ↔ name ∈ Dict.keys (d.collection kind.collection) :=
  List.contains_iff_mem

theorem not_declares_iff {name : String} {kind : SymbolKind} :
    (!d.declares name kind) = true ↔ name ∉ Dict.keys (d.collection kind.collection) := by
  rw [Bool.not_eq_true', ← Bool.not_eq_true, declares_iff]

/-- The last kind that declares a name is the first one on the way back. -/
theorem lastOf_iff {kinds : List SymbolKind} {name : String} {kind : SymbolKind} :
    d.LastOf kinds name kind ↔ kinds.reverse.find? (d.declares name) = some kind := by
  rw [List.find?_eq_some_iff_append]
  constructor
  · rintro ⟨before, after, rfl, hmem, hlater⟩
    refine ⟨declares_iff.mpr hmem, after.reverse, before.reverse, by simp, fun later hin => ?_⟩
    exact not_declares_iff.mpr (hlater later (List.mem_reverse.mp hin))
  · rintro ⟨hdeclares, front, back, hsplit, hfront⟩
    refine ⟨back.reverse, front.reverse, ?_, declares_iff.mp hdeclares, fun later hin => ?_⟩
    · have hkinds := congrArg List.reverse hsplit
      simpa using hkinds
    · exact not_declares_iff.mp (hfront later (List.mem_reverse.mp hin))

theorem mem_declaredPairs {kind : SymbolKind} {name : String} :
    (kind, name) ∈ d.declaredPairs ↔ name ∈ Dict.keys (d.collection kind.collection) := by
  have hall : kind ∈ SymbolKind.all := by cases kind <;> decide
  simp [declaredPairs, hall]

end Document

/-! ### The table -/

/-- **As a type a name is looked up from the last kind to the first.** -/
theorem SymbolTable.lookup?_eq_find? (d : Document) (name : String) :
    (ofDocument d).lookup? name = SymbolKind.types.reverse.find? (d.declares name) := by
  have htypes : SymbolKind.types = SymbolKind.all.filter SymbolKind.isType := rfl
  have hkinds : typeKinds d name = SymbolKind.types.filter (d.declares name) := by
    rw [htypes, List.filter_filter, typeKinds]
    exact List.filter_congr fun kind _ => Bool.and_comm ..
  rw [lookup?_ofDocument, hkinds, List.getLast?_filter]

section
variable {d : Document}
  (hnodup : ∀ kind : SymbolKind, (Dict.keys (d.collection kind.collection)).Nodup)
include hnodup

theorem Document.nodup_declaredPairs : d.declaredPairs.Nodup := by
  refine List.nodup_flatMap.mpr ⟨fun kind _ => ?_, ?_⟩
  · exact (hnodup kind).map fun _ _ heq => (Prod.mk.inj heq).2
  · have hall : SymbolKind.all.Nodup := by decide
    refine hall.imp fun {kind kind'} hne => ?_
    intro pair hpair hpair'
    obtain ⟨name, -, rfl⟩ := List.mem_map.mp hpair
    obtain ⟨name', -, heq⟩ := List.mem_map.mp hpair'
    exact hne (Prod.mk.inj heq).1.symm

/-- The table holds every pair of kind and name once. -/
theorem SymbolTable.size_ofDocument : (ofDocument d).size = d.declaredPairs.length := by
  have hperm : (ofDocument d).declared.Perm d.declaredPairs := by
    refine (List.perm_ext_iff_of_nodup (nodup_ofDocument d)
      (Document.nodup_declaredPairs hnodup)).mpr ?_
    rintro ⟨kind, name⟩
    rw [Document.mem_declaredPairs, ← contains_ofDocument, contains, List.contains_iff_mem]
  exact hperm.length_eq

end

/-! ### The combined view -/

namespace Classification

/-- The combined view takes in all entries of all kinds, one after the other. -/
theorem combined_eq_ofList (d : Document) :
    combined d = Dict.ofList (SymbolKind.shown.flatMap fun kind => d.collection kind.collection) :=
  List.foldl_flatMap.symm

theorem keys_combined (d : Document) : Dict.keys (combined d) =
    (SymbolKind.shown.flatMap fun kind => Dict.keys (d.collection kind.collection)).eraseDups := by
  rw [combined_eq_ofList, (Dict.arranged_ofList _).order, List.map_flatMap]
  rfl

section
variable {d : Document}
  (hnodup : ∀ kind : SymbolKind, (Dict.keys (d.collection kind.collection)).Nodup)
include hnodup

/-- A name is found in the last collection that has it, or in what was there before. -/
theorem get?_foldl_extend (kinds : List SymbolKind) (all : Members) (name : String) :
    Dict.get? (kinds.foldl (fun all kind => Dict.extend all (d.collection kind.collection)) all)
        name =
      (kinds.reverse.findSome? fun kind => Dict.get? (d.collection kind.collection) name).or
        (Dict.get? all name) := by
  induction kinds generalizing all with
  | nil => rfl
  | cons kind kinds ih =>
      rw [List.foldl_cons, ih, Dict.get?_extend_of_nodup (hnodup kind), List.reverse_cons,
        List.findSome?_append, List.findSome?_singleton, Option.or_assoc]

/-- **In the combined view a name is looked up from the last kind to the first**, and among
the aggregates in the end. -/
theorem get?_combined (name : String) : Dict.get? (combined d) name =
    (SymbolKind.types.reverse.findSome? fun kind =>
      Dict.get? (d.collection kind.collection) name).or (Dict.get? d.aggregates name) := by
  have hfold := get?_foldl_extend hnodup SymbolKind.types (Dict.extend [] d.aggregates) name
  have haggregates := Dict.get?_extend_of_nodup (d := []) (hnodup .aggregate) name
  rw [Dict.get?_nil, Option.or_none] at haggregates
  exact hfold.trans (congrArg _ haggregates)

/-- Where a kind counts, its declaration is shown. -/
theorem get?_combined_found {name : String} {kind : SymbolKind}
    (h : SymbolKind.types.reverse.find? (d.declares name) = some kind) :
    ∃ node, Dict.get? (d.collection kind.collection) name = some node ∧
      Dict.get? (combined d) name = some node := by
  obtain ⟨hdeclares, front, back, hsplit, hfront⟩ := List.find?_eq_some_iff_append.mp h
  rw [Document.declares_iff, Dict.mem_keys_iff] at hdeclares
  obtain ⟨node, hnode⟩ := Option.isSome_iff_exists.mp hdeclares
  have hskip : (front.findSome? fun kind => Dict.get? (d.collection kind.collection) name) =
      none := by
    refine List.findSome?_eq_none_iff.mpr fun later hin => ?_
    exact Dict.get?_eq_none_iff.mpr (Document.not_declares_iff.mp (hfront later hin))
  refine ⟨node, hnode, ?_⟩
  rw [get?_combined hnodup, hsplit, List.findSome?_append, hskip, Option.none_or,
    List.findSome?_cons, hnode, Option.some_or]

/-- Where no kind counts, an aggregate is shown. -/
theorem get?_combined_missing {name : String}
    (h : SymbolKind.types.reverse.find? (d.declares name) = none) :
    Dict.get? (combined d) name = Dict.get? d.aggregates name := by
  rw [get?_combined hnodup, List.findSome?_eq_none_iff.mpr, Option.none_or]
  intro kind hkind
  have hnot := List.find?_eq_none.mp h kind hkind
  rw [Document.declares_iff] at hnot
  exact Dict.get?_eq_none_iff.mpr hnot

/-- The table and the combined view of a document agree. -/
theorem shows_combined : d.Shows (SymbolTable.ofDocument d) (combined d) where
  lookup name kind := by
    rw [SymbolTable.lookup?_eq_find?, Document.lastOf_iff]
  found name kind h := by
    rw [SymbolTable.lookup?_eq_find?] at h
    exact get?_combined_found hnodup h
  missing name h := by
    rw [SymbolTable.lookup?_eq_find?] at h
    have hsame := get?_combined_missing hnodup h
    refine ⟨?_, hsame⟩
    rw [Dict.mem_keys_iff, Dict.mem_keys_iff, hsame]
  order := keys_combined d
  distinct := Document.nodup_declaredPairs hnodup
  size := SymbolTable.size_ofDocument hnodup

end

end Classification

open Classification

/-- **The two views of the declared names agree.**  In the classified model of a text the
table and the combined view follow one order of kinds, every name that is no type shows its
aggregate if it has one, and the table counts every pair of kind and name once. -/
theorem classify_shows (naming : Naming) (source : String) :
    ∃ m, buildModel naming source = .ok m ∧ ∃ symbols all, m.classify.symbols = some symbols ∧
      m.classify.document.allEntitiesAndEnums = some all ∧
      m.classify.document.Shows symbols all := by
  have hdecls := declarations_model naming source
  refine ⟨_, buildModel_eq naming source, _, _, rfl, allEntitiesAndEnums_classify _, ?_⟩
  have hnodup : ∀ kind : SymbolKind, (Dict.keys
      ((Direct.model naming source).classify.document.collection kind.collection)).Nodup := by
    intro kind
    have hkind : kind.collection ≠ .relationships := by cases kind <;> decide
    rw [keys_classify hdecls]
    exact (arranged_collection ⟨naming, source.toList⟩ (shaped_parse source) hkind).nodup
  have hshows := shows_combined hnodup
  rw [ofDocument_classify hdecls] at hshows
  exact hshows

end DomainModel
