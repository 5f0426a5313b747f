/-
What declarations mean.

`entries` is what a declaration puts into its collection: its own node, then those of the
types that its fields declare, each in front of those inside it.  That is written down here
without a word about trees, and then found again in the tree of a declaration: the entry of
each field (`fieldEntry_field`), and with these the nodes of the types and of the declaration
itself (`value_block`, `value_declaration`).
-/
import DomainModel.Proofs.Build.Rendered
import DomainModel.Proofs.Grammar.Declared
import DomainModel.Proofs.Text.Blank

namespace DomainModel

open Grammar
open Lexer (literalKinds mark)

namespace Declared

/-! ### Meaning -/

def Keyword.collection : Keyword → Collection
  | entity => .entities
  | input => .inputs
  | output => .outputs
  | event => .events

def Check.entry (c : Check) : String × Value :=
  (c.word, .map [("name", .string c.word), ("value", .string (c.bound.getD ""))])

/-- A literal has the value of its text, or is its text if that has none. -/
def Initial.value : Initial → Value
  | literal kind text =>
    match Literal.parse kind text with
    | .ok v => v
    | .error _ => .string text
  | word text => Literal.word text

namespace Field

/-- The type of a field and whether it is an array; bytes in an array are a type. -/
def type (f : Field) : String × Bool :=
  if f.head.isArray && f.head.type == "byte" then ("byte[]", false)
  else (f.head.type, f.head.isArray)

/-- The checks of a field, with those behind its block. -/
def checks : Field → Members
  | plain head => head.checks.map Check.entry
  | block head _ behind => Dict.extend (head.checks.map Check.entry) (behind.map Check.entry)

def entry (f : Field) : String × Value :=
  (f.head.name, .map [("name", .string f.head.name), ("type", .string f.type.1),
    ("initialValue", (f.head.initial.map Initial.value).getD .null), ("javadoc", .null),
    ("comment", .null), ("isEnum", .bool false), ("isEntity", .bool false),
    ("isInput", .bool false), ("isOutput", .bool false), ("isEvent", .bool false),
    ("isArray", .bool f.type.2), ("isComplexType", .bool false), ("options", .map []),
    ("optionsList", .list []), ("validations", .map f.checks)])

end Field

/-- The node of a declaration. -/
def node (naming : Naming) (c : Collection) (name : String) (table : Option String)
    (options : Members) (fields : List Field) : Value :=
  let forms := naming.formsOf name
  .map [("name", .string name), ("type", .string c.key), ("className", .string forms.className),
    ("tableName", .string (table.getD forms.snakeCase)),
    ("instanceName", .string forms.instanceName),
    ("classNamePlural", .string forms.classNamePlural),
    ("instanceNamePlural", .string forms.instanceNamePlural),
    ("kebabCase", .string forms.kebabCase), ("kebabCasePlural", .string forms.kebabCasePlural),
    ("javadoc", .null), ("options", .map options), ("optionsList", .list []),
    ("fields", .map (fields.map Field.entry))]

mutual

/-- The types that a field declares: its own, and those of the fields in its block. -/
def Field.entries (naming : Naming) (c : Collection) : Field → Members
  | .plain _ => []
  | .block head inner _ =>
    (head.type, node naming c head.type head.table [("embedded", .bool true)] inner) ::
      entriesOfAll naming c inner

def entriesOfAll (naming : Naming) (c : Collection) : List Field → Members
  | [] => []
  | f :: fs => f.entries naming c ++ entriesOfAll naming c fs

end

def Declaration.entries (naming : Naming) (d : Declaration) : Members :=
  (d.name, node naming d.keyword.collection d.name none [] d.fields) ::
    entriesOfAll naming d.keyword.collection d.fields

/-- What declarations put into a collection. -/
def collection (naming : Naming) (ds : List Declaration) (c : Collection) : Members :=
  (ds.filter (·.keyword.collection = c)).flatMap (Declaration.entries naming)

def document (naming : Naming) (ds : List Declaration) : Document where
  entities := collection naming ds .entities
  inputs := collection naming ds .inputs
  outputs := collection naming ds .outputs
  events := collection naming ds .events

/-! ### The tree of a field -/

theorem filter_checks {kind : NodeKind} (hkind : kind ≠ .validation) (checks : List Check) :
    (checks.map Check.tree).filter (Tree.isNode kind) = [] :=
  List.filter_eq_nil_iff.mpr fun t ht => by
    obtain ⟨c, -, rfl⟩ := List.mem_map.mp ht
    simpa [Check.tree, Tree.isNode, Tree.kind?] using hkind.symm

theorem filter_validations (checks : List Check) :
    (checks.map Check.tree).filter (Tree.isNode .validation) = checks.map Check.tree :=
  List.filter_eq_self.mpr fun t ht => by
    obtain ⟨c, -, rfl⟩ := List.mem_map.mp ht
    rfl

/-- What stands behind the checks of a field. -/
def Field.tail : Field → List Tree
  | plain _ => [.leaf (mark .comma)]
  | block _ inner behind => [blockTree inner behind, .leaf (mark .comma)]

theorem Field.tree_eq (f : Field) : f.tree = .node .field (nameTree f.head.name :: typeTree f.head ::
    (tableTrees f.head.table ++ initialTrees f.head.initial ++ f.head.checks.map Check.tree ++
      f.tail)) := by
  cases f <;> rw [Field.tree] <;> rfl

theorem childrenOf_field (f : Field) {kind : NodeKind} (hchecks : kind ≠ .validation)
    (hblock : kind ≠ .nestedField) : f.tree.childrenOf kind =
      (nameTree f.head.name :: typeTree f.head :: (tableTrees f.head.table ++
        initialTrees f.head.initial)).filter (Tree.isNode kind) := by
  have htail : f.tail.filter (Tree.isNode kind) = [] := by
    cases f <;> simp [Field.tail, blockTree, Tree.isNode, Tree.kind?, hblock.symm]
  rw [Field.tree_eq, Tree.childrenOf, Tree.children, List.filter_cons, List.filter_cons,
    List.filter_append, List.filter_append, filter_checks hchecks, htail, List.append_nil,
    List.append_nil, List.filter_cons, List.filter_cons]

theorem child?_field (f : Field) {kind : NodeKind} (hchecks : kind ≠ .validation)
    (hblock : kind ≠ .nestedField) : f.tree.child? kind =
      (nameTree f.head.name :: typeTree f.head :: (tableTrees f.head.table ++
        initialTrees f.head.initial)).find? (Tree.isNode kind) := by
  rw [← List.head?_filter, ← childrenOf_field f hchecks hblock, Tree.childrenOf, List.head?_filter,
    Tree.child?]

theorem tableName_field (f : Field) : f.tree.childWord? .tableName = f.head.table := by
  rw [Tree.childWord?, child?_field f (by decide) (by decide)]
  cases f.head.table with
  | some name => rfl
  | none => cases f.head.initial <;> rfl

theorem initialValue_field (f : Field) : f.tree.child? .initialValue =
    f.head.initial.map fun v => .node .initialValue [v.tree] := by
  rw [child?_field f (by decide) (by decide)]
  cases f.head.table <;> cases f.head.initial <;> rfl

theorem validations_field (f : Field) : f.tree.validations = f.head.checks.map Check.tree := by
  have hparts : (tableTrees f.head.table).filter (Tree.isNode .validation) = [] ∧
      (initialTrees f.head.initial).filter (Tree.isNode .validation) = [] := by
    cases f.head.table <;> cases f.head.initial <;> exact ⟨rfl, rfl⟩
  have htail : f.tail.filter (Tree.isNode .validation) = [] := by
    cases f <;> simp [Field.tail, blockTree, Tree.isNode, Tree.kind?]
  rw [Field.tree_eq, Tree.validations, Tree.childrenOf, Tree.children,
    List.filter_cons_of_neg (by simp [nameTree, Tree.isNode, Tree.kind?]),
    List.filter_cons_of_neg (by simp [typeTree, Tree.isNode, Tree.kind?]),
    List.filter_append, List.filter_append, List.filter_append, hparts.1, hparts.2, htail,
    filter_validations, List.append_nil]
  rfl

theorem javadoc_field (f : Field) : f.tree.javadoc? = none ∧ f.tree.anyJavadoc? = none := by
  have hchecks : (f.head.checks.map Check.tree).filterMap Tree.token? = [] := by
    simp [List.filterMap_eq_nil_iff, Check.tree, Tree.token?]
  have htail : f.tail.filterMap Tree.token? = [mark .comma] := by
    cases f <;> simp [Field.tail, blockTree, Tree.token?, List.filterMap_cons]
  have htokens : f.tree.childTokens = (tableTrees f.head.table).filterMap Tree.token? ++
      (initialTrees f.head.initial).filterMap Tree.token? ++ [mark .comma] := by
    rw [Field.tree_eq, Tree.childTokens, Tree.children]
    simp only [nameTree, typeTree, List.filterMap_cons, Tree.token?, List.filterMap_append, hchecks,
      htail, List.append_nil]
  have hfront : f.tree.javadoc? = none := by
    rw [Tree.javadoc?, Tree.childToken?, htokens]
    cases f.head.table <;> cases f.head.initial <;> rfl
  have hsuffix : f.tree.child? .suffixJavadoc = none := by
    rw [child?_field f (by decide) (by decide)]
    cases f.head.table <;> cases f.head.initial <;> rfl
  refine ⟨hfront, ?_⟩
  rw [Tree.anyJavadoc?, hfront, Tree.suffixJavadoc?, hsuffix]
  rfl

/-! ### The entry of a field -/

theorem Check.Proper.argument {c : Check} (h : c.Proper) : c.tree.argument? = c.bound := by
  obtain ⟨w, bound⟩ := c
  cases bound with
  | none => rfl
  | some text =>
      have hvisible : ∀ c ∈ text.toList, Text.isBlank c = false := by
        intro c hc
        rcases (h.bound text rfl).integer c hc with hdigit | rfl
        · exact Text.not_isBlank (Lexer.printed_of_isWordPart (Lexer.isWordPart_of_isDigit hdigit))
        · decide
      have hargument : (Check.tree ⟨w, some text⟩).argument? =
          some (String.ofList (Text.trim [text.toList].flatten)) := rfl
      rw [hargument, List.flatten_singleton, Text.trim_of_not_isBlank hvisible, String.ofList_toList]

/-- No quotes are around a bound, so taking them off changes nothing. -/
theorem Check.Proper.unquote {c : Check} (h : c.Proper) :
    onText Literal.unquote (c.bound.getD "") = c.bound.getD "" := by
  cases hbound : c.bound with
  | none => rfl
  | some text =>
      have hplain := (h.bound text hbound).integer
      rw [Option.getD_some, onText]
      cases htext : text.toList with
      | nil => rw [Literal.unquote, ← htext, String.ofList_toList]
      | cons c cs =>
          have hquote : ¬((decide (c = '"') || decide (c = '\'')) = true) := by
            rcases hplain c (htext ▸ List.mem_cons_self ..) with hdigit | rfl
            · have hne : c ≠ '"' ∧ c ≠ '\'' := by
                constructor <;> rintro rfl <;> exact absurd hdigit (by decide)
              simpa using hne
            · decide
          rw [Literal.unquote, if_neg hquote, ← htext, String.ofList_toList]

theorem Check.Proper.validationEntry {c : Check} (h : c.Proper) :
    Build.validationEntry c.tree = some c.entry := by
  have hname : c.tree.identifier? = some c.word := by
    obtain ⟨w, bound⟩ := c
    cases bound <;> rfl
  rw [Build.validationEntry, hname, h.argument, Option.map_some]
  simp only [h.unquote, ite_self]
  rfl

theorem validationEntries_checks {checks : List Check} (h : ProperChecks checks) :
    Build.validationEntries (checks.map Check.tree) = checks.map Check.entry := by
  have hentries : (checks.map Check.tree).filterMap Build.validationEntry = checks.map Check.entry := by
    rw [List.filterMap_map, ← List.filterMap_eq_map]
    exact List.filterMap_congr fun c hc => (h.each c hc).validationEntry
  rw [Build.validationEntries, hentries]
  refine Dict.ofList_of_nodup ?_
  rw [Dict.keys, List.map_map]
  exact h.distinct

theorem fieldTypeOf_field (f : Field) : Build.fieldTypeOf f.tree = (some f.type.1, f.type.2) := by
  have hchild : f.tree.child? .fieldType = some (typeTree f.head) := by
    rw [child?_field f (by decide) (by decide)]
    rfl
  have hident : (typeTree f.head).identifier? = some f.head.type := by
    cases hrray : f.head.isArray <;> rfl
  have hbrackets : (typeTree f.head).hasBrackets = f.head.isArray := by
    cases harray : f.head.isArray <;> simp [typeTree, harray] <;> rfl
  rw [Build.fieldTypeOf, hchild]
  simp only [hident, hbrackets, Option.some_beq_some, Field.type]
  split <;> rfl

theorem initialValueOf_field {f : Field} (h : f.head.Proper) :
    Build.initialValueOf f.tree = (f.head.initial.map Initial.value).getD .null := by
  rw [Build.initialValueOf, initialValue_field]
  cases hinitial : f.head.initial with
  | none => rfl
  | some v =>
      have hv := h.initial v hinitial
      rw [Option.map_some, Option.map_some, Option.getD_some]
      cases v with
      | literal kind text =>
          have hliteral : ∀ k ∈ literalKinds, k.isLiteral = true := by decide
          have hscalar : (Value.literalTree ⟨kind, text, 0⟩).scalar =
              (Initial.literal kind text).value := by
            cases hparse : Literal.parse kind text <;>
              simp [Value.literalTree, Tree.scalar, Tree.scalarOf, Tree.children, Tree.token?,
                hliteral kind hv.1, Initial.value, hparse]
          exact hscalar
      | word text =>
          have hvisible : ∀ c ∈ text.toList, Text.isBlank c = false := fun c hc =>
            Text.not_isBlank (Lexer.printed_of_isWordPart (Lexer.isWordPart_of_mem hv hc))
          have htext : (Tree.node .initialValue [(Initial.word text).tree]).text = text :=
            Tree.text_single .initialValue (Lexer.word text)
          have hword : Literal.word (onText Text.trim text) = (Initial.word text).value := by
            rw [onText, Text.trim_of_not_isBlank hvisible, String.ofList_toList]
            rfl
          show Literal.word (onText Text.trim (Tree.node .initialValue
            [(Initial.word text).tree]).text) = _
          rw [htext, hword]

theorem notesIn_field (f : Field) : Direct.notesIn f.tree.children = [] := by
  have hnone : f.tree.childrenOf .annotationNode = [] := by
    rw [childrenOf_field f (by decide) (by decide)]
    cases f.head.table <;> cases f.head.initial <;> rfl
  rw [Direct.notesIn, ← Tree.childrenOf, hnone]
  rfl

theorem isNode_field (f : Field) (kind : NodeKind) :
    f.tree.isNode kind = (kind == .field) := by
  rw [Field.tree_eq, Tree.isNode, Tree.kind?]
  cases kind <;> rfl

theorem filter_fields {kind : NodeKind} (hkind : kind ≠ .field) (fs : List Field) :
    (fieldTrees fs).filter (Tree.isNode kind) = [] := by
  rw [fieldTrees_eq]
  refine List.filter_eq_nil_iff.mpr fun t ht => ?_
  obtain ⟨f, -, rfl⟩ := List.mem_map.mp ht
  rw [isNode_field]
  simpa using hkind

theorem validations_block (inner : List Field) (behind : List Check) :
    (blockTree inner behind).validations = behind.map Check.tree := by
  rw [blockTree, Tree.validations, Tree.childrenOf, Tree.children,
    List.filter_cons_of_neg Bool.false_ne_true, List.filter_append,
    filter_fields (by decide), List.filter_cons_of_neg Bool.false_ne_true, filter_validations,
    List.nil_append]

theorem blocks_field (f : Field) : f.tree.childrenOf .nestedField =
    f.tail.filter (Tree.isNode .nestedField) := by
  have hparts : (tableTrees f.head.table).filter (Tree.isNode .nestedField) = [] ∧
      (initialTrees f.head.initial).filter (Tree.isNode .nestedField) = [] := by
    cases f.head.table <;> cases f.head.initial <;> exact ⟨rfl, rfl⟩
  rw [Field.tree_eq, Tree.childrenOf, Tree.children, List.filter_cons_of_neg Bool.false_ne_true,
    List.filter_cons_of_neg Bool.false_ne_true, List.filter_append, List.filter_append,
    List.filter_append, hparts.1, hparts.2, filter_checks (by decide)]
  rfl

theorem checks_field {f : Field} (h : f.Proper) :
    Direct.checks f.tree f.tree.children = [("validations", .map f.checks)] := by
  rw [Direct.checks, Direct.checksBehind, ← Tree.childrenOf, blocks_field, validations_field]
  cases h with
  | @plain head h =>
      have htail : (Field.plain head).tail.filter (Tree.isNode .nestedField) = [] := rfl
      rw [htail, Field.head, validationEntries_checks h.checks]
      rfl
  | @block head inner behind h _ _ hbehind =>
      have htail : (Field.block head inner behind).tail.filter (Tree.isNode .nestedField) =
          [blockTree inner behind] := by
        rw [Field.tail, blockTree]
        rfl
      rw [htail, List.flatMap_singleton, validations_block, validationEntries_checks hbehind,
        Field.head, validationEntries_checks h.checks]
      rfl

theorem fieldEntry_field {f : Field} (h : f.Proper) : Direct.fieldEntry f.tree = f.entry := by
  have hhead : f.head.Proper := by cases h <;> assumption
  have hname : f.tree.nameOrEmpty = f.head.name := by
    rw [Tree.nameOrEmpty, Tree.name?, Tree.childWord?, child?_field f (by decide) (by decide)]
    rfl
  rw [Direct.fieldEntry, Build.fieldMembers, Direct.noted, notesIn_field, checks_field h, hname,
    fieldTypeOf_field, initialValueOf_field hhead, (javadoc_field f).2]
  rfl

/-! ### The nodes of declarations -/

/-- A block reads as its fields do, whatever stands between them. -/
theorem entriesOf_fields {fs : List Field} (each : ∀ f ∈ fs, f.Proper)
    (distinct : (fs.map (·.head.name)).Nodup) {ts : List Tree}
    (hts : ts.filter (Tree.isNode .field) = fieldTrees fs) :
    Direct.entriesOf .field Direct.fieldEntry ts = .map (fs.map Field.entry) := by
  have hentries : (fieldTrees fs).map Direct.fieldEntry = fs.map Field.entry := by
    rw [fieldTrees_eq, List.map_map]
    exact List.map_congr_left fun f hf => fieldEntry_field (each f hf)
  have hkeys : (Dict.keys (fs.map Field.entry)).Nodup := by
    rw [Dict.keys, List.map_map]
    exact distinct
  rw [Direct.entriesOf, hts, hentries, Dict.ofList_of_nodup hkeys]

theorem filter_field {fs : List Field} {behind : List Tree}
    (hbehind : behind.filter (Tree.isNode .field) = []) :
    (.leaf (mark .lBrace) :: (fieldTrees fs ++ .leaf (mark .rBrace) :: behind)).filter
      (Tree.isNode .field) = fieldTrees fs := by
  have hall : (fieldTrees fs).filter (Tree.isNode .field) = fieldTrees fs := by
    refine List.filter_eq_self.mpr fun t ht => ?_
    rw [fieldTrees_eq] at ht
    obtain ⟨f, -, rfl⟩ := List.mem_map.mp ht
    exact isNode_field f .field
  rw [List.filter_cons_of_neg Bool.false_ne_true, List.filter_append, hall,
    List.filter_cons_of_neg Bool.false_ne_true, hbehind, List.append_nil]

/-- The construct that the block of a field is. -/
def blockSite (c : Collection) (head : Head) (inner : List Field) (behind : List Check) :
    Direct.Site :=
  ⟨c, some (Field.block head inner behind).tree, .nestedField, blockTree inner behind⟩

theorem name_block (c : Collection) (head : Head) (inner : List Field) (behind : List Check) :
    (blockSite c head inner behind).name = head.type := by
  have hchild : (Field.block head inner behind).tree.child? .fieldType = some (typeTree head) := by
    rw [child?_field _ (by decide) (by decide)]
    rfl
  rw [Direct.Site.name, blockSite]
  simp only [Option.bind_some, hchild]
  cases harray : head.isArray <;> rfl

theorem value_block {head : Head} {inner : List Field} {behind : List Check} (naming : Naming)
    (c : Collection) (h : (Field.block head inner behind).Proper) :
    (blockSite c head inner behind).value ⟨naming, []⟩ =
      node naming c head.type head.table [("embedded", .bool true)] inner := by
  have hname := name_block c head inner behind
  simp only [Direct.Site.name, blockSite, Option.bind_some] at hname
  have hslots : Direct.slots .nestedField (blockTree inner behind) =
      [("fields", .map (inner.map Field.entry))] := by
    cases h with
    | block _ each distinct _ =>
    have hfields := entriesOf_fields each distinct (filter_field (filter_checks (by decide) behind))
    rw [blockTree, Direct.slots, Direct.slotsOf, Tree.children, Direct.content, hfields]
    rfl
  rw [Direct.Site.value, blockSite]
  simp only [Direct.opening, Option.bind_eq_bind, Option.bind_some, notesIn_field, Direct.finished,
    hslots, Build.nestedField, hname, tableName_field, (javadoc_field _).1]
  rfl

/-- The construct that a declaration is. -/
def Declaration.site (root : Tree) (d : Declaration) : Direct.Site :=
  ⟨d.keyword.collection, some root, d.keyword.kind, d.tree⟩

theorem name_declaration (root : Tree) (d : Declaration) : (d.site root).name = d.name := by
  obtain ⟨keyword, name, fs⟩ := d
  cases keyword <;> rfl

theorem value_declaration (naming : Naming) (root : Tree) {d : Declaration} (h : d.Proper) :
    (d.site root).value ⟨naming, []⟩ =
      node naming d.keyword.collection d.name none [] d.fields := by
  have hnothing : ([] : List Tree).filter (Tree.isNode .field) = [] := rfl
  have hfields := entriesOf_fields h.each h.distinct (filter_field hnothing)
  obtain ⟨keyword, name, fs⟩ := d
  have hinside : Direct.inside .declBody (Declaration.tree ⟨keyword, name, fs⟩).children =
      .leaf (mark .lBrace) :: (fieldTrees fs ++ [.leaf (mark .rBrace)]) := by
    show List.flatMap Tree.children [.node .declBody _] = _
    rw [List.flatMap_singleton]
    rfl
  have hnotes : Direct.noted (Declaration.tree ⟨keyword, name, fs⟩).children =
      [("options", .map []), ("optionsList", .list [])] := rfl
  have hslots : Direct.slots keyword.kind (Declaration.tree ⟨keyword, name, fs⟩) =
      [("options", .map []), ("optionsList", .list []), ("fields", .map (fs.map Field.entry))] := by
    cases keyword <;>
      rw [Direct.slots, Direct.slotsOf, hnotes, Keyword.kind, Direct.content, hinside, hfields] <;>
      rfl
  cases keyword <;>
    simp only [Direct.Site.value, Declaration.site, Keyword.kind, Direct.opening, Direct.finished] <;>
    rw [Keyword.kind] at hslots <;> rw [hslots] <;> rfl

end Declared

end DomainModel
