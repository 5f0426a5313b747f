/-
Classification sets six flags and leaves the rest alone.

What a field is marked with depends on its type and on the names that are declared, and
classification changes neither: types are no flags, and tables are made of names and of
options.  So it says of every field what is declared (`classified_field`), it is undone by
blanking the flags (`unmarked_classify`), and a second time it finds nothing to do
(`classify_classify`).  `classify_exact` puts the three together for the models of texts.
-/
import DomainModel.Proofs.Build.Schema
import DomainModel.Proofs.Model.Symbols

namespace DomainModel

namespace Classification

/-! ### Fields, wherever they stand -/

/-- Changes every field of a declaration. -/
def eachField (f : Members → Members) : Value → Value :=
  onMap (Dict.modify "fields" (onMap (onValues (onMap f))))

theorem onValues_onValues (f g : Value → Value) (m : Members) :
    onValues g (onValues f m) = onValues (fun v => g (f v)) m := by
  rw [onValues, onValues, onValues, List.map_map]
  rfl

/-- Changing all fields twice is changing each of them twice. -/
theorem eachField_eachField (f g : Members → Members) (v : Value) :
    eachField g (eachField f v) = eachField (fun node => g (f node)) v := by
  simp only [eachField, onMap_onMap, Dict.modify_modify, onValues_onValues]

/-- Two changes are the same for a declaration if they are for its fields. -/
theorem eachField_congr {f g : Members → Members} {v : Value} {fields : Members}
    (hfields : v.get? "fields" = some (.map fields))
    (h : ∀ e ∈ fields, onMap f e.2 = onMap g e.2) : eachField f v = eachField g v := by
  obtain ⟨node, rfl, hnode⟩ := eq_map_of_get? hfields
  refine congrArg Value.map (Dict.modify_congr fun w hw => ?_)
  obtain rfl := Option.some.inj (hnode.symm.trans hw)
  refine congrArg Value.map (List.map_congr_left fun e he => ?_)
  rw [h e he]

/-! ### Flags -/

/-- A field that is classified already stays as it is. -/
theorem field_field (symbols : SymbolTable) (node : Members) :
    field symbols (field symbols node) = field symbols node := by
  rw [field_eq_extend symbols (field symbols node), get?_field_type]
  refine Dict.extend_of_get? fun mark hmark => ?_
  rw [field_eq_extend, Dict.get?_extend_of_nodup (nodup_marks ..),
    Dict.get?_of_mem (nodup_marks ..) hmark, Option.some_or]

theorem declaration_declaration (symbols : SymbolTable) (v : Value) :
    declaration symbols (declaration symbols v) = declaration symbols v := by
  show eachField (field symbols) (eachField (field symbols) v) = eachField (field symbols) v
  rw [eachField_eachField, funext (field_field symbols)]

/-- A field without what its flags say; the flags keep their places. -/
def unmark (node : Members) : Members :=
  node.map fun e => if e.1 ∈ flagKeys then (e.1, .null) else e

/-- Setting a flag does not show once the flags are blank. -/
theorem unmark_insert {key : String} {node : Members} (hflag : key ∈ flagKeys)
    (hmem : key ∈ Dict.keys node) (v : Value) :
    unmark (Dict.insert key v node) = unmark node := by
  induction node with
  | nil => cases hmem
  | cons entry node ih =>
      by_cases h : entry.1 = key
      · rw [Dict.insert, if_pos h, unmark, unmark, List.map_cons, List.map_cons, if_pos hflag,
          if_pos (h ▸ hflag), h]
      · have hrest : key ∈ Dict.keys node :=
          (List.mem_cons.mp hmem).resolve_left fun heq => h heq.symm
        rw [Dict.insert, if_neg h, unmark, List.map_cons]
        exact congrArg (_ :: ·) (ih hrest)

theorem unmark_extend {marks : Members} :
    ∀ {node : Members}, (∀ key ∈ Dict.keys marks, key ∈ flagKeys ∧ key ∈ Dict.keys node) →
      unmark (Dict.extend node marks) = unmark node := by
  induction marks with
  | nil => exact fun _ => rfl
  | cons mark marks ih =>
      intro node h
      obtain ⟨hflag, hmem⟩ := h mark.1 (List.mem_cons_self ..)
      have hrest : ∀ key ∈ Dict.keys marks,
          key ∈ flagKeys ∧ key ∈ Dict.keys (Dict.insert mark.1 mark.2 node) := by
        intro key hkey
        obtain ⟨hflag, hmem⟩ := h key (List.mem_cons_of_mem _ hkey)
        exact ⟨hflag, Dict.mem_keys_insert.mpr (.inr hmem)⟩
      show unmark (Dict.extend (Dict.insert mark.1 mark.2 node) marks) = unmark node
      rw [ih hrest, unmark_insert hflag hmem]

/-- **Apart from its flags a field is as it was**, and they stand where they stood. -/
theorem unmark_field {symbols : SymbolTable} {node : Members}
    (h : ∀ key ∈ flagKeys, key ∈ Dict.keys node) : unmark (field symbols node) = unmark node := by
  rw [field_eq_extend]
  refine unmark_extend fun key hkey => ?_
  rw [keys_marks] at hkey
  exact ⟨hkey, h key hkey⟩

/-- A declaration as documents have it keeps all but its flags. -/
theorem unmark_declaration {symbols : SymbolTable} {c : Collection} {name : String} {v : Value}
    (h : IsDeclaration c name v) :
    eachField unmark (declaration symbols v) = eachField unmark v := by
  obtain ⟨fields, hfields, hall⟩ := h.fields
  show eachField unmark (eachField (field symbols) v) = eachField unmark v
  rw [eachField_eachField]
  refine eachField_congr hfields fun e he => ?_
  obtain ⟨⟨node, hnode, -⟩, hkeys, -, -⟩ := hall e he
  rw [hnode] at hkeys ⊢
  have hrow : Dict.keys node = keysOfField := Option.some.inj hkeys
  exact congrArg Value.map (unmark_field (hrow ▸ by decide))

/-! ### Names -/

/-- Only its options decide whether a declaration is marked as an aggregate. -/
theorem marksAggregate_declaration (symbols : SymbolTable) (v : Value) :
    SymbolTable.marksAggregate (declaration symbols v) = SymbolTable.marksAggregate v := by
  rw [SymbolTable.marksAggregate, SymbolTable.marksAggregate, get?_declaration,
    if_neg (by decide)]

/-- Names are entered alike from declarations that are marked alike. -/
theorem foldl_enter_onValues {f : Value → Value}
    (h : ∀ v, SymbolTable.marksAggregate (f v) = SymbolTable.marksAggregate v) (kind : SymbolKind)
    (m : Members) (t : SymbolTable) :
    (onValues f m).foldl (SymbolTable.enter kind) t = m.foldl (SymbolTable.enter kind) t := by
  rw [onValues, List.foldl_map]
  refine List.foldl_ext _ _ _ fun t e _ => ?_
  rw [SymbolTable.enter, SymbolTable.enter, h]

end Classification

open Classification

/-- What a field says is what a document declares: each flag whether the type is a name of
that kind, and the last one whether it is a name of any kind. -/
structure Classified (d : Document) (field : Value) : Prop where
  kinds : ∀ kind : SymbolKind, ∀ flag ∈ kind.flag?, ∃ b, field.get? flag = some (.bool b) ∧
    (b = true ↔ ∃ type, field.getString? "type" = some type ∧
      type ∈ Dict.keys (d.collection kind.collection))
  complex : ∃ b, field.get? "isComplexType" = some (.bool b) ∧
    (b = true ↔ ∃ kind : SymbolKind, ∃ flag ∈ kind.flag?, field.get? flag = some (.bool true))

/-- A document without what the flags of its fields say and without its combined view. -/
def Document.unmarked (d : Document) : Document :=
  { Collection.withFields.foldl (fun d c => d.update c (onValues (eachField unmark))) d with
    allEntitiesAndEnums := none }

/-! ### Documents -/

namespace Document

theorem collection_unmarked (d : Document) (c : Collection) : d.unmarked.collection c =
    if c ∈ Collection.withFields then onValues (eachField unmark) (d.collection c)
    else d.collection c := by
  have hfold : d.unmarked.collection c = (Collection.withFields.foldl
      (fun d c => d.update c (onValues (eachField unmark))) d).collection c := by
    cases c <;> rfl
  rw [hfold]
  simp only [Collection.withFields, List.foldl_cons, List.foldl_nil, collection_update]
  cases c <;> rfl

theorem rest_unmarked (d : Document) : d.unmarked.imports = d.imports ∧
    d.unmarked.javadoc = d.javadoc ∧ d.unmarked.allEntitiesAndEnums = none :=
  ⟨rfl, rfl, rfl⟩

end Document

namespace Classification

/-- Beside the collections a pass over the fields leaves everything as it was. -/
theorem rest_onePass (symbols : SymbolTable) (d : Document) :
    (onePass symbols d).imports = d.imports ∧ (onePass symbols d).javadoc = d.javadoc ∧
      (onePass symbols d).allEntitiesAndEnums = d.allEntitiesAndEnums :=
  ⟨rfl, rfl, rfl⟩

/-- The combined view shows collections. -/
theorem combined_congr {d d' : Document} (h : ∀ c, d.collection c = d'.collection c) :
    combined d = combined d' := by
  simp only [combined, h]

/-- What relates the collections of two documents and is kept by writing relates their combined
views. -/
theorem combined_rel {P : Members → Members → Prop} {d d' : Document} (hnil : P [] [])
    (hextend : ∀ m m' more more', P m m' → P more more' →
      P (Dict.extend m more) (Dict.extend m' more'))
    (h : ∀ c, P (d.collection c) (d'.collection c)) : P (combined d) (combined d') := by
  have hfold : ∀ (kinds : List SymbolKind) (m m' : Members), P m m' →
      P (kinds.foldl (fun all kind => Dict.extend all (d.collection kind.collection)) m)
        (kinds.foldl (fun all kind => Dict.extend all (d'.collection kind.collection)) m') := by
    intro kinds
    induction kinds with
    | nil => exact fun _ _ hm => hm
    | cons kind kinds ih => exact fun m m' hm => ih _ _ (hextend _ _ _ _ hm (h kind.collection))
  exact hfold _ _ _ hnil

/-- A classified model shows what stands in its collections. -/
theorem allEntitiesAndEnums_classify (m : Model) :
    m.classify.document.allEntitiesAndEnums = some (combined m.classify.document) :=
  congrArg some (combined_congr fun c => by cases c <;> rfl)

section
variable {m : Model}
  (hdecls : ∀ c ∈ Collection.withFields, Declarations (m.document.collection c))
include hdecls

/-- Declarations with fields stay such. -/
theorem declarations_classify : ∀ c ∈ Collection.withFields,
    Declarations (m.classify.document.collection c) := by
  intro c hc
  rw [collection_classify hdecls, if_pos hc]
  obtain ⟨hnodup, hdotless, hfields⟩ := hdecls c hc
  refine ⟨?_, ?_, fun e he => ?_⟩
  · rw [keys_onValues]
    exact hnodup
  · rw [keys_onValues]
    exact hdotless
  · obtain ⟨e, hmem, rfl⟩ := List.mem_map.mp he
    obtain ⟨fields, hget, hkeys⟩ := hfields e hmem
    refine ⟨onValues (onMap (field (SymbolTable.ofDocument m.document))) fields, ?_, ?_⟩
    · rw [get?_declaration, if_pos rfl, hget]
      rfl
    · rw [keys_onValues]
      exact hkeys

/-- Classification declares nothing, so the names are those of before. -/
theorem ofDocument_classify :
    SymbolTable.ofDocument m.classify.document = SymbolTable.ofDocument m.document := by
  refine List.foldl_ext _ _ _ fun t kind _ => ?_
  rw [collection_classify hdecls]
  split
  · exact foldl_enter_onValues (marksAggregate_declaration _) kind _ t
  · rfl

theorem document_classify : m.classify.document =
    { onePass (SymbolTable.ofDocument m.document) m.document with
      allEntitiesAndEnums := some (combined m.classify.document) } := by
  rw [← allEntitiesAndEnums_classify, ← fields_eq hdecls]
  rfl

/-- Imports and the doc comment are no matter of names. -/
theorem rest_classify : m.classify.document.imports = m.document.imports ∧
    m.classify.document.javadoc = m.document.javadoc := by
  rw [document_classify hdecls]
  exact ⟨rfl, rfl⟩

/-- **Apart from flags and the combined view a document is as it was.** -/
theorem unmarked_classify
    (hrow : ∀ c ∈ Collection.withFields, ∀ e ∈ m.document.collection c, IsDeclaration c e.1 e.2) :
    m.classify.document.unmarked = m.document.unmarked := by
  obtain ⟨himports, hjavadoc⟩ := rest_classify hdecls
  obtain ⟨hi, hj, ha⟩ := m.classify.document.rest_unmarked
  obtain ⟨hi', hj', ha'⟩ := m.document.rest_unmarked
  refine Document.eq_of (by rw [hi, hi', himports]) (fun c => ?_) (by rw [hj, hj', hjavadoc])
    (by rw [ha, ha'])
  rw [Document.collection_unmarked, Document.collection_unmarked]
  by_cases hc : c ∈ Collection.withFields
  · rw [if_pos hc, if_pos hc, collection_classify hdecls, if_pos hc, onValues_onValues]
    refine List.map_congr_left fun e he => congrArg (e.1, ·) ?_
    exact unmark_declaration (hrow c hc e he)
  · rw [if_neg hc, if_neg hc, collection_classify hdecls, if_neg hc]

/-- **A second classification changes nothing.** -/
theorem classify_classify : m.classify.classify = m.classify := by
  have htable := ofDocument_classify hdecls
  have hpass : onePass (SymbolTable.ofDocument m.document) m.classify.document =
      m.classify.document := by
    obtain ⟨himports, hjavadoc, hview⟩ := rest_onePass (SymbolTable.ofDocument m.document)
      m.classify.document
    refine Document.eq_of himports (fun c => ?_) hjavadoc hview
    rw [collection_onePass, collection_classify hdecls]
    split
    · rw [onValues_onValues, funext (declaration_declaration _)]
    · rfl
  have hcollections : ∀ c, m.classify.classify.document.collection c =
      m.classify.document.collection c := by
    intro c
    rw [collection_classify (declarations_classify hdecls), htable, ← collection_onePass, hpass]
  have hdocument : m.classify.classify.document = m.classify.document := by
    rw [document_classify (declarations_classify hdecls), htable, hpass,
      combined_congr hcollections, ← allEntitiesAndEnums_classify]
  calc m.classify.classify
    _ = { m.classify with
          document := m.classify.classify.document
          symbols := some (SymbolTable.ofDocument m.classify.document) } := rfl
    _ = m.classify := by rw [hdocument, htable]; rfl

end

/-- There is one flag for every kind that has one. -/
theorem mem_flags {symbols : SymbolTable} {type : Option String} {mark : String × Bool} :
    mark ∈ flags symbols type ↔ ∃ kind : SymbolKind, ∃ flag ∈ kind.flag?,
      mark = (flag, type.any (symbols.contains kind)) := by
  have hall : ∀ kind, kind ∈ SymbolKind.all := by
    intro kind
    cases kind <;> decide
  simp only [flags, List.mem_filterMap, hall, true_and, Option.map_eq_some_iff, Option.mem_def,
    eq_comm (b := mark)]

theorem get?_field_complex (symbols : SymbolTable) (node : Members) :
    Dict.get? (field symbols node) "isComplexType" =
      some (.bool ((flags symbols ((Dict.get? node "type").bind Value.string?)).any (·.2))) := by
  rw [field, Dict.get?_insert, if_pos rfl]

section
variable {symbols : SymbolTable} {d : Document}
  (hnames : ∀ kind name, symbols.contains kind name = true ↔
    name ∈ Dict.keys (d.collection kind.collection))
include hnames

/-- **A classified field says what the names of its document are.** -/
theorem classified_field (node : Members) : Classified d (.map (field symbols node)) := by
  let type := (Dict.get? node "type").bind Value.string?
  have htype : (Value.map (field symbols node)).getString? "type" = type :=
    congrArg (·.bind Value.string?) (get?_field_type symbols node)
  refine ⟨fun kind flag hflag => ⟨_, get?_field hflag, ?_⟩, _, get?_field_complex symbols node, ?_⟩
  · rw [htype, Option.any_eq_true]
    simp only [hnames]
    rfl
  · rw [List.any_eq_true]
    constructor
    · rintro ⟨mark, hmark, htrue⟩
      obtain ⟨kind, flag, hflag, rfl⟩ := mem_flags.mp hmark
      exact ⟨kind, flag, hflag, (get?_field hflag).trans (congrArg (some <| Value.bool ·) htrue)⟩
    · rintro ⟨kind, flag, hflag, hget⟩
      have htrue : type.any (symbols.contains kind) = true :=
        Value.bool.inj (Option.some.inj ((get?_field hflag).symm.trans hget))
      exact ⟨_, mem_flags.mpr ⟨kind, flag, hflag, rfl⟩, htrue⟩

theorem classified_declaration {c : Collection} {name : String} {v : Value}
    (h : IsDeclaration c name v) :
    Keeps (fun _ => Classified d) "fields" (declaration symbols v) := by
  obtain ⟨fields, hfields, hall⟩ := h.fields
  refine ⟨onValues (onMap (field symbols)) fields, ?_, fun f hf => ?_⟩
  · rw [get?_declaration, if_pos rfl, hfields]
    rfl
  · obtain ⟨f, hfield, rfl⟩ := List.mem_map.mp hf
    obtain ⟨node, hnode, -⟩ := (hall f hfield).named
    rw [hnode]
    exact classified_field hnames node

end

end Classification

/-- **Classification is exact and touches nothing else.**  In the model of a text every field
gets the flags that its type calls for; without the flags the document is what it was, and
so are the places and the problems; and a second time nothing changes at all. -/
theorem classify_exact (naming : Naming) (source : String) :
    ∃ m, buildModel naming source = .ok m ∧
      (∀ c ∈ Collection.withFields, ∀ e ∈ m.classify.document.collection c,
        Keeps (fun _ => Classified m.classify.document) "fields" e.2) ∧
      m.classify.document.unmarked = m.document.unmarked ∧
      m.classify.locations = m.locations ∧ m.classify.problems = m.problems ∧
      m.classify.classify = m.classify := by
  obtain ⟨m, hm, hregular, -⟩ := buildModel_regular naming source
  obtain rfl : Direct.model naming source = m :=
    Except.ok.inj ((buildModel_eq naming source).symm.trans hm)
  have hdecls := declarations_model naming source
  have hadmits : ∀ c ∈ Collection.withFields,
      ∀ e ∈ (Direct.model naming source).document.collection c, IsDeclaration c e.1 e.2 := by
    intro c hc e he
    have hadmitted := hregular.admits c e he
    cases c <;> first
      | exact hadmitted
      | exact absurd hc (by decide)
  refine ⟨_, hm, fun c hc e he => ?_, ?_, rfl, rfl, classify_classify hdecls⟩
  · rw [collection_classify hdecls, if_pos hc] at he
    obtain ⟨e, hmem, rfl⟩ := List.mem_map.mp he
    refine classified_declaration (fun kind name => ?_) (hadmits c hc e hmem)
    rw [SymbolTable.contains_ofDocument, keys_classify hdecls]
  · exact unmarked_classify hdecls hadmits

end DomainModel
