/-
A text of declarations has the document that they mean.

In the tree of such a text the stored constructs are the declarations and the blocks of their
fields (`sites_tree`), nothing else is found in it (`Made.found`), and what it quotes are
single tokens (`Made.terse`).  So its document holds what the declarations mean, and no more.
-/
import DomainModel.Proofs.Build.Declared
import Mathlib.Data.List.Flatten

namespace DomainModel

open Grammar
open Lexer (mark)

namespace Declared

/-! ### The stored constructs -/

/-- No part of these trees is stored. -/
def Quiet (ts : List Tree) : Prop :=
  ∀ within parent, ts.flatMap (Direct.sitesBefore within parent) = []

theorem quiet_append {ts us : List Tree} (hts : Quiet ts) (hus : Quiet us) : Quiet (ts ++ us) :=
  fun within parent => by rw [List.flatMap_append, hts, hus, List.append_nil]

theorem quiet_leaves (ts : List Token) : Quiet (leaves ts) := by
  intro within parent
  induction ts with
  | nil => rfl
  | cons t ts ih => exact ih

/-- A node with nothing to be stored inside it, and of a kind that is not stored. -/
theorem quiet_node {kind : NodeKind} {ts : List Tree} (hts : Quiet ts)
    (hkind : ∀ within, Direct.collectionOf within kind = none) : Quiet [.node kind ts] := by
  intro within parent
  rw [List.flatMap_singleton, Direct.sitesBefore, Direct.sitesBeforeAll_eq, hts, List.append_nil,
    Direct.siteOf, hkind]
  rfl

theorem quiet_checks (checks : List Check) : Quiet (checks.map Check.tree) := by
  induction checks with
  | nil => exact fun _ _ => rfl
  | cons c cs ih => exact quiet_append (quiet_node (quiet_leaves _) fun _ => rfl) ih

theorem quiet_head (h : Head) : Quiet h.trees := by
  have hleaf (t : Token) : Quiet [.leaf t] := quiet_leaves [t]
  have htable : Quiet (tableTrees h.table) := by
    cases h.table with
    | none => exact fun _ _ => rfl
    | some name =>
        exact quiet_append (hleaf _)
          (quiet_append (quiet_node (hleaf (Lexer.word name)) fun _ => rfl) (hleaf _))
  have hinitial : Quiet (initialTrees h.initial) := by
    cases h.initial with
    | none => exact fun _ _ => rfl
    | some v =>
        have hv : Quiet [v.tree] := by
          cases v with
          | literal => exact quiet_node (hleaf _) fun _ => rfl
          | word => exact hleaf _
        exact quiet_append (hleaf _) (quiet_node hv fun _ => rfl)
  have htype : Quiet [typeTree h] := quiet_node (quiet_leaves (Lexer.word h.type :: arrayTokens h.isArray)) fun _ => rfl
  exact quiet_append (quiet_node (hleaf (Lexer.word h.name)) fun _ => rfl)
    (quiet_append htype (quiet_append (quiet_append htable hinitial) (quiet_checks h.checks)))

mutual

/-- The types that a field declares, as constructs. -/
def Field.sites (c : Collection) : Field → List Direct.Site
  | .plain _ => []
  | .block head inner behind => blockSite c head inner behind :: sitesOfAll c inner

def sitesOfAll (c : Collection) : List Field → List Direct.Site
  | [] => []
  | f :: fs => f.sites c ++ sitesOfAll c fs

end

def Declaration.sites (root : Tree) (d : Declaration) : List Direct.Site :=
  d.site root :: sitesOfAll d.keyword.collection d.fields

theorem sitesBefore_fields {c : Collection} {fs : List Field}
    (h : ∀ f ∈ fs, ∀ parent, Direct.sitesBefore (some c) parent f.tree = f.sites c)
    (parent : Option Tree) :
    (fieldTrees fs).flatMap (Direct.sitesBefore (some c) parent) = sitesOfAll c fs := by
  induction fs with
  | nil => rw [fieldTrees, sitesOfAll, List.flatMap_nil]
  | cons f fs ih =>
      obtain ⟨hf, hfs⟩ := List.forall_mem_cons.mp h
      rw [fieldTrees, sitesOfAll, List.flatMap_cons, hf, ih hfs]

theorem sitesBefore_field (c : Collection) (f : Field) :
    ∀ parent, Direct.sitesBefore (some c) parent f.tree = f.sites c := by
  induction f using Field.induct with
  | plain head =>
      intro parent
      have hquiet : Quiet [(Field.plain head).tree] := by
        rw [Field.tree]
        exact quiet_node (quiet_append (quiet_head head) (quiet_leaves [mark .comma])) fun _ => rfl
      rw [Field.sites, ← hquiet (some c) parent, List.flatMap_singleton]
  | block head inner behind ih =>
      intro parent
      have hblock (parent : Option Tree) : Direct.sitesBefore (some c) parent (blockTree inner behind) =
          ⟨c, parent, .nestedField, blockTree inner behind⟩ :: sitesOfAll c inner := by
        rw [blockTree, Direct.sitesBefore, Direct.sitesBeforeAll_eq]
        show _ :: List.flatMap (Direct.sitesBefore (some c) _) _ = _
        rw [List.flatMap_cons, List.flatMap_append, List.flatMap_cons, sitesBefore_fields ih,
          quiet_checks behind]
        simp only [Direct.sitesBefore, List.nil_append, List.append_nil]
      have hinside (parent : Option Tree) : (head.trees ++ [blockTree inner behind,
          .leaf (mark .comma)]).flatMap (Direct.sitesBefore (some c) parent) =
          ⟨c, parent, .nestedField, blockTree inner behind⟩ :: sitesOfAll c inner := by
        rw [List.flatMap_append, quiet_head, List.flatMap_cons, hblock]
        exact List.append_nil _
      rw [Field.sites, blockSite, Field.tree, Direct.sitesBefore, Direct.sitesBeforeAll_eq]
      exact hinside _

theorem sitesBefore_declaration (root : Tree) (d : Declaration) :
    Direct.sitesBefore none (some root) d.tree = d.sites root := by
  obtain ⟨keyword, name, fs⟩ := d
  have hquiet : Quiet [.leaf (Lexer.word keyword.text), nameTree name] :=
    quiet_append (quiet_leaves [_]) (quiet_node (quiet_leaves [Lexer.word name]) fun _ => rfl)
  have hbody (c : Collection) (parent : Option Tree) : Direct.sitesBefore (some c) parent
      (.node .declBody (.leaf (mark .lBrace) :: (fieldTrees fs ++ [.leaf (mark .rBrace)]))) =
      sitesOfAll c fs := by
    rw [Direct.sitesBefore, Direct.sitesBeforeAll_eq]
    show List.flatMap (Direct.sitesBefore (some c) _) _ = _
    rw [List.flatMap_cons, List.flatMap_append,
      sitesBefore_fields fun f _ parent => sitesBefore_field c f parent]
    exact List.append_nil _
  have hinside (c : Collection) (parent : Option Tree) :
      (Declaration.tree ⟨keyword, name, fs⟩).children.flatMap (Direct.sitesBefore (some c) parent) =
        sitesOfAll c fs := by
    show List.flatMap _ ([Tree.leaf (Lexer.word keyword.text), nameTree name] ++ [_]) = _
    rw [List.flatMap_append, hquiet, List.flatMap_singleton, hbody, List.nil_append]
  cases keyword <;>
    rw [Declaration.sites, Declaration.tree, Direct.sitesBefore, Direct.sitesBeforeAll_eq] <;>
    exact congrArg (_ :: ·) (hinside _ _)

/-! ### Names and entries -/

mutual

/-- The names of the types that a field declares. -/
def Field.names : Field → List String
  | .plain _ => []
  | .block head inner _ => head.type :: namesOfAll inner

def namesOfAll : List Field → List String
  | [] => []
  | f :: fs => f.names ++ namesOfAll fs

end

/-- The names that a declaration introduces: its own, and those of the types of its fields. -/
def Declaration.names (d : Declaration) : List String := d.name :: namesOfAll d.fields

/-- The tree of a text of declarations. -/
def tree (ds : List Declaration) : Tree := .node .sourceFile (ds.map Declaration.tree)

theorem names_fields {c : Collection} {fs : List Field}
    (h : ∀ f ∈ fs, (f.sites c).map Direct.Site.name = f.names) :
    (sitesOfAll c fs).map Direct.Site.name = namesOfAll fs := by
  induction fs with
  | nil => rw [sitesOfAll, namesOfAll, List.map_nil]
  | cons f fs ih =>
      obtain ⟨hf, hfs⟩ := List.forall_mem_cons.mp h
      rw [sitesOfAll, namesOfAll, List.map_append, hf, ih hfs]

theorem names_field (c : Collection) (f : Field) : (f.sites c).map Direct.Site.name = f.names := by
  induction f using Field.induct with
  | plain head => rw [Field.sites, Field.names, List.map_nil]
  | block head inner behind ih =>
      rw [Field.sites, Field.names, List.map_cons, name_block, names_fields ih]

theorem names_sites (root : Tree) (d : Declaration) :
    (d.sites root).map Direct.Site.name = d.names := by
  rw [Declaration.sites, Declaration.names, List.map_cons, name_declaration,
    names_fields fun f _ => names_field _ f]

variable {naming : Naming}

theorem entries_fields {c : Collection} {fs : List Field}
    (h : ∀ f ∈ fs, (f.sites c).map (fun s => (s.name, s.value ⟨naming, []⟩)) = f.entries naming c) :
    (sitesOfAll c fs).map (fun s => (s.name, s.value ⟨naming, []⟩)) = entriesOfAll naming c fs := by
  induction fs with
  | nil => rw [sitesOfAll, entriesOfAll, List.map_nil]
  | cons f fs ih =>
      obtain ⟨hf, hfs⟩ := List.forall_mem_cons.mp h
      rw [sitesOfAll, entriesOfAll, List.map_append, hf, ih hfs]

theorem entries_field (c : Collection) {f : Field} (h : f.Proper) :
    (f.sites c).map (fun s => (s.name, s.value ⟨naming, []⟩)) = f.entries naming c := by
  induction h with
  | plain => rw [Field.sites, Field.entries, List.map_nil]
  | block h each distinct hbehind ih =>
      rw [Field.sites, Field.entries, List.map_cons, name_block,
        value_block naming c (.block h each distinct hbehind), entries_fields ih]

theorem entries_sites (root : Tree) {d : Declaration} (h : d.Proper) :
    (d.sites root).map (fun s => (s.name, s.value ⟨naming, []⟩)) = d.entries naming := by
  rw [Declaration.sites, Declaration.entries, List.map_cons, name_declaration,
    value_declaration naming root h, entries_fields fun f hf => entries_field _ (h.each f hf)]

theorem collection_fields {c : Collection} {fs : List Field}
    (h : ∀ f ∈ fs, ∀ s ∈ f.sites c, s.collection = c) : ∀ s ∈ sitesOfAll c fs, s.collection = c := by
  induction fs with
  | nil =>
      rw [sitesOfAll]
      exact List.forall_mem_nil _
  | cons f fs ih =>
      obtain ⟨hf, hfs⟩ := List.forall_mem_cons.mp h
      rw [sitesOfAll]
      exact List.forall_mem_append.mpr ⟨hf, ih hfs⟩

theorem collection_field (c : Collection) (f : Field) : ∀ s ∈ f.sites c, s.collection = c := by
  induction f using Field.induct with
  | plain head =>
      rw [Field.sites]
      exact List.forall_mem_nil _
  | block head inner behind ih =>
      rw [Field.sites]
      exact List.forall_mem_cons.mpr ⟨rfl, collection_fields ih⟩

/-- All that a declaration stores is stored in its collection. -/
theorem collection_sites (root : Tree) (d : Declaration) :
    ∀ s ∈ d.sites root, s.collection = d.keyword.collection :=
  List.forall_mem_cons.mpr ⟨rfl, collection_fields fun f _ => collection_field _ f⟩

theorem filter_sites (c : Collection) (root : Tree) (ds : List Declaration) :
    (ds.flatMap (Declaration.sites root)).filter (·.collection = c) =
      (ds.filter (·.keyword.collection = c)).flatMap (Declaration.sites root) := by
  induction ds with
  | nil => rfl
  | cons d ds ih =>
      rw [List.flatMap_cons, List.filter_append, ih]
      by_cases hc : d.keyword.collection = c
      · have hall : (d.sites root).filter (·.collection = c) = d.sites root :=
          List.filter_eq_self.mpr fun s hs => by simp [collection_sites root d s hs, hc]
        rw [hall, List.filter_cons_of_pos (by simpa using hc), List.flatMap_cons]
      · have hnone : (d.sites root).filter (·.collection = c) = [] :=
          List.filter_eq_nil_iff.mpr fun s hs => by simp [collection_sites root d s hs, hc]
        rw [hnone, List.filter_cons_of_neg (by simpa using hc), List.nil_append]

/-- The kinds of nodes in the tree of declarations, checks and initial values left out. -/
def plainKinds : List NodeKind :=
  [.sourceFile, .entity, .input, .output, .event, .name, .tableName, .declBody, .field, .fieldType,
    .nestedField]

/-- What the tree of declarations is made of. -/
inductive Made : Tree → Prop
  | leaf (t : Token) : Made (.leaf t)
  | plain {kind : NodeKind} {ts : List Tree} (hkind : kind ∈ plainKinds)
      (hts : ∀ t ∈ ts, Made t) : Made (.node kind ts)
  | check (c : Check) : Made c.tree
  | initial (v : Initial) : Made (.node .initialValue [v.tree])

theorem made_leaves (ts : List Token) : ∀ t ∈ leaves ts, Made t := by
  intro t ht
  obtain ⟨token, -, rfl⟩ := List.mem_map.mp ht
  exact .leaf token

theorem made_checks (checks : List Check) : ∀ t ∈ checks.map Check.tree, Made t := by
  intro t ht
  obtain ⟨c, -, rfl⟩ := List.mem_map.mp ht
  exact .check c

theorem made_head (h : Head) : ∀ t ∈ h.trees, Made t := by
  have htable : ∀ t ∈ tableTrees h.table, Made t := by
    cases h.table with
    | none => exact List.forall_mem_nil _
    | some name =>
        exact List.forall_mem_cons.mpr ⟨.leaf _, List.forall_mem_cons.mpr
          ⟨.plain (by decide) (made_leaves [Lexer.word name]), made_leaves [_]⟩⟩
  have hinitial : ∀ t ∈ initialTrees h.initial, Made t := by
    cases h.initial with
    | none => exact List.forall_mem_nil _
    | some v => exact List.forall_mem_cons.mpr ⟨.leaf _, List.forall_mem_singleton.mpr (.initial v)⟩
  simp only [Head.trees, List.forall_mem_cons, List.forall_mem_append]
  exact ⟨.plain (by decide) (made_leaves [Lexer.word h.name]),
    .plain (by decide) (made_leaves (Lexer.word h.type :: arrayTokens h.isArray)),
    ⟨htable, hinitial⟩, made_checks h.checks⟩

theorem made_field (f : Field) : Made f.tree := by
  induction f using Field.induct with
  | plain head =>
      rw [Field.tree]
      exact .plain (by decide) (List.forall_mem_append.mpr ⟨made_head head, made_leaves [_]⟩)
  | block head inner behind ih =>
      have hinner : ∀ t ∈ fieldTrees inner, Made t := by
        intro t ht
        rw [fieldTrees_eq] at ht
        obtain ⟨f, hf, rfl⟩ := List.mem_map.mp ht
        exact ih f hf
      have hblock : Made (blockTree inner behind) := by
        rw [blockTree]
        refine .plain (by decide) ?_
        simp only [List.forall_mem_cons, List.forall_mem_append]
        exact ⟨.leaf _, hinner, .leaf _, made_checks behind⟩
      rw [Field.tree]
      exact .plain (by decide) (List.forall_mem_append.mpr ⟨made_head head,
        List.forall_mem_cons.mpr ⟨hblock, made_leaves [_]⟩⟩)

theorem made_tree (ds : List Declaration) : Made (tree ds) := by
  refine .plain (by decide) fun t ht => ?_
  obtain ⟨⟨keyword, name, fs⟩, -, rfl⟩ := List.mem_map.mp ht
  have hfields : ∀ t ∈ fieldTrees fs, Made t := by
    intro t ht
    rw [fieldTrees_eq] at ht
    obtain ⟨f, -, rfl⟩ := List.mem_map.mp ht
    exact made_field f
  have hbody : Made (.node .declBody
      (.leaf (mark .lBrace) :: (fieldTrees fs ++ [.leaf (mark .rBrace)]))) :=
    .plain (by decide) (List.forall_mem_cons.mpr
      ⟨.leaf _, List.forall_mem_append.mpr ⟨hfields, made_leaves [_]⟩⟩)
  have hname : Made (nameTree name) := .plain (by decide) (made_leaves [Lexer.word name])
  have hkeyword : keyword.kind ∈ plainKinds := by cases keyword <;> decide
  exact .plain hkeyword (List.forall_mem_cons.mpr ⟨.leaf _, List.forall_mem_cons.mpr
    ⟨hname, List.forall_mem_singleton.mpr hbody⟩⟩)

/-- Every quotation is one token: the bound of a check, or a word. -/
theorem Made.terse {t : Tree} (h : Made t) : t.Terse := by
  have hleaves (ts : List Token) : ∀ t ∈ leaves ts, t.Terse := by
    intro t ht
    obtain ⟨token, -, rfl⟩ := List.mem_map.mp ht
    exact .leaf token
  induction h with
  | leaf t => exact .leaf t
  | @plain kind ts hkind _ ih =>
      have hnone : (Tree.node kind ts).quoted kind = [] := by
        cases kind <;> first
          | rfl
          | exact absurd hkind (by decide)
      exact .node (by rw [hnone]; exact Nat.zero_le 1) ih
  | check c =>
      obtain ⟨w, bound⟩ := c
      refine .node ?_ (hleaves _)
      cases bound with
      | none => exact Nat.zero_le 1
      | some text => exact Nat.le_refl 1
  | initial v =>
      refine .node ?_ (List.forall_mem_singleton.mpr ?_)
      · cases v <;> exact Nat.le_refl 1
      · cases v with
        | literal kind text => exact .node (Nat.zero_le 1) (hleaves [_])
        | word text => exact .leaf _

/-- Nothing is found that is picked from other nodes. -/
theorem Made.found {α : Type} {pick : Option Tree → NodeKind → Tree → List α} {t : Tree} (h : Made t)
    (hpick : ∀ kind ∈ [.validation, .initialValue, .literal] ++ plainKinds,
      ∀ parent t, pick parent kind t = []) : ∀ parent, Direct.found pick parent t = [] := by
  have hleaves (ts : List Token) (parent : Option Tree) :
      (leaves ts).flatMap (Direct.found pick parent) = [] := by
    refine List.flatMap_eq_nil_iff.mpr fun t ht => ?_
    obtain ⟨token, -, rfl⟩ := List.mem_map.mp ht
    rfl
  induction h with
  | leaf => exact fun _ => rfl
  | plain hkind _ ih =>
      intro parent
      rw [Direct.found, hpick _ (List.mem_append_right _ hkind), Direct.foundAll_eq]
      exact List.flatMap_eq_nil_iff.mpr fun t ht => ih t ht _
  | check c =>
      intro parent
      rw [Check.tree, Direct.found, hpick _ (by decide), Direct.foundAll_eq, hleaves, List.nil_append]
  | initial v =>
      intro parent
      have hvalue : ∀ parent, Direct.found pick parent v.tree = [] := by
        intro parent
        cases v with
        | literal kind text =>
            rw [Initial.tree, Value.literalTree, Direct.found, hpick _ (by decide)]
            rfl
        | word text => rfl
      rw [Direct.found, hpick _ (by decide), Direct.foundAll_eq, List.flatMap_singleton, hvalue,
        List.nil_append]

/-! ### The document -/

/-- The text of declarations: their tokens with blanks between them. -/
def text (ds : List Declaration) : String := Lexer.spaced (ds.flatMap Declaration.tokens)

theorem sites_tree (ds : List Declaration) :
    Direct.sitesBefore none none (tree ds) = ds.flatMap (Declaration.sites (tree ds)) := by
  rw [tree, Direct.sitesBefore, Direct.sitesBeforeAll_eq, ← tree, List.flatMap_map]
  exact List.flatMap_congr fun d _ => sitesBefore_declaration (tree ds) d

theorem collection_tree (naming : Naming) {ds : List Declaration} (h : ∀ d ∈ ds, d.Proper)
    (hnames : (ds.flatMap Declaration.names).Nodup) {c : Collection} (hc : c ≠ .relationships) :
    Direct.collection ⟨naming, []⟩ (tree ds) c = collection naming ds c := by
  have hdistinct : (Direct.names c (tree ds)).Nodup := by
    have hsites : Direct.names c (tree ds) =
        (ds.filter (·.keyword.collection = c)).flatMap Declaration.names := by
      rw [Direct.names, sites_tree, filter_sites, List.map_flatMap]
      exact List.flatMap_congr fun d _ => names_sites (tree ds) d
    rw [hsites]
    exact hnames.sublist (List.filter_sublist.flatMap _)
  rw [Direct.collection_of_distinct _ hc hdistinct, sites_tree, filter_sites, List.map_flatMap]
  exact List.flatMap_congr fun d hd => entries_sites (tree ds) (h d (List.mem_filter.mp hd).1)

theorem document_tree (naming : Naming) {ds : List Declaration} (h : ∀ d ∈ ds, d.Proper)
    (hnames : (ds.flatMap Declaration.names).Nodup) :
    Direct.document ⟨naming, []⟩ (tree ds) = document naming ds := by
  have hcollection {c : Collection} (hc : c ≠ .relationships) := collection_tree naming h hnames hc
  have hothers (c : Collection) (hc : c ∉ [.entities, .inputs, .outputs, .events]) :
      collection naming ds c = [] := by
    have hnone : ds.filter (·.keyword.collection = c) = [] := by
      refine List.filter_eq_nil_iff.mpr fun d _ => ?_
      obtain ⟨keyword, name, fs⟩ := d
      simp only [List.mem_cons, List.not_mem_nil, or_false, not_or] at hc
      cases keyword <;> simp [Keyword.collection, Ne.symm, hc, eq_comm]
    rw [collection, hnone, List.flatMap_nil]
  have hfound {α : Type} {pick : Option Tree → NodeKind → Tree → List α}
      (hpick : ∀ kind ∈ [.validation, .initialValue, .literal] ++ plainKinds,
        ∀ parent t, pick parent kind t = []) := (made_tree ds).found hpick none
  have himports : Direct.found Direct.importsOf none (tree ds) = [] :=
    hfound fun kind hkind _ _ => by cases kind <;> first | rfl | exact absurd hkind (by decide)
  have hcomments : Direct.found Direct.commentsOf none (tree ds) = [] :=
    hfound fun kind hkind _ _ => by cases kind <;> first | rfl | exact absurd hkind (by decide)
  have hrelations : Direct.found (Direct.relationsOf ⟨naming, []⟩) none (tree ds) = [] :=
    hfound fun kind hkind _ _ => by cases kind <;> first | rfl | exact absurd hkind (by decide)
  have hrelationships : Direct.collection ⟨naming, []⟩ (tree ds) .relationships = [] := by
    rw [Direct.collection, hrelations]
    rfl
  rw [Direct.document, himports, hcomments, hrelationships]
  simp only [hcollection, ne_eq, reduceCtorEq, not_false_eq_true]
  rw [hothers .config (by decide), hothers .apis (by decide), hothers .plugins (by decide),
    hothers .policies (by decide), hothers .aggregates (by decide), hothers .enums (by decide),
    hothers .services (by decide), hothers .constants (by decide)]
  rfl

/-- **A text of declarations with different names has no errors and the document that they
mean**, whatever their names are. -/
theorem buildModel_declarations (naming : Naming) {ds : List Declaration} (h : ∀ d ∈ ds, d.Proper)
    (hnames : (ds.flatMap Declaration.names).Nodup) :
    (parse (text ds)).errors (text ds) = [] ∧
      ∃ m, buildModel naming (text ds) = .ok m ∧ m.document = document naming ds := by
  have hsolid : ∀ t ∈ ds.flatMap Declaration.tokens, Lexer.Solid t := by
    intro t ht
    obtain ⟨d, hd, ht⟩ := List.mem_flatMap.mp ht
    exact (h d hd).solid t ht
  have hundocumented : ∀ t ∈ ds.flatMap Declaration.tokens, t.kind ≠ .javadoc :=
    fun t ht => (hsolid t ht).undocumented
  have hcut : Lexer.Cut (text ds).toList (ds.flatMap Declaration.tokens) := .spaced hsolid
  have haccepts := accepts_declarations h
  have htext : String.ofList (text ds).toList = text ds := String.ofList_toList
  obtain ⟨hcomplaints, -⟩ := parse_of_accepts hcut hundocumented haccepts
  have hdocument := document_of_accepts naming hcut hundocumented haccepts
    (quotations_of_terse hcut hundocumented haccepts (made_tree ds).terse)
  rw [htext] at hcomplaints hdocument
  refine ⟨by rw [Parse.errors, hcomplaints, List.map_nil], _, buildModel_eq naming (text ds), ?_⟩
  rw [hdocument, ← tree, document_tree naming h hnames]

/-- Keywords and the words of checks as names. -/
theorem buildModel_declarations_words :
    let ds : List Declaration := [⟨.entity, "entity", [.block ⟨"required", "min", true,
      some "config", some (.literal .integer "-5"), [⟨"unique", none⟩, ⟨"max", some "3"⟩]⟩
      [.plain ⟨"unique", "byte", true, none, some (.word "true"), []⟩] [⟨"required", none⟩]]⟩,
      ⟨.input, "event", []⟩]
    let source := "entity entity \x7b required min [ ] ( config ) = -5 unique max ( 3 ) " ++
      "\x7b unique byte [ ] = true , \x7d required , \x7d input event \x7b \x7d"
    text ds = source ∧ (parse source).errors source = [] ∧
      ∃ m, buildModel .english source = .ok m ∧ m.document = document .english ds := by
  intro ds source
  have hsource : text ds = source := by decide +kernel
  have hcheck {w : String} (hw : w ∈ validationWords) : ProperChecks [⟨w, none⟩] :=
    ⟨List.forall_mem_singleton.mpr ⟨hw, fun _ h => nomatch h⟩, List.nodup_singleton _⟩
  have hchecks : ProperChecks [⟨"unique", none⟩, ⟨"max", some "3"⟩] := by
    refine ⟨List.forall_mem_cons.mpr ⟨⟨by decide, fun _ h => nomatch h⟩,
      List.forall_mem_singleton.mpr ⟨by decide, ?_⟩⟩, by decide⟩
    rintro _ ⟨⟩
    exact ⟨'3', [], by decide, by decide⟩
  have hinner : Field.Proper (.plain ⟨"unique", "byte", true, none, some (.word "true"), []⟩) := by
    refine .plain ⟨by decide, by decide, fun _ h => (nomatch h), ?_, List.forall_mem_nil _,
      List.nodup_nil⟩
    rintro _ ⟨⟩
    exact (by decide : Lexer.isWord "true".toList = true)
  have houter : Head.Proper ⟨"required", "min", true, some "config", some (.literal .integer "-5"),
      [⟨"unique", none⟩, ⟨"max", some "3"⟩]⟩ := by
    refine ⟨by decide, by decide, ?_, ?_, hchecks⟩
    · rintro _ ⟨⟩
      decide
    · rintro _ ⟨⟩
      exact ⟨by decide, '-', ['5'], by decide, by decide⟩
  have hfields : ∀ f ∈ [Field.plain ⟨"unique", "byte", true, none, some (.word "true"), []⟩],
      f.Proper := List.forall_mem_singleton.mpr hinner
  have hproper : ∀ d ∈ ds, d.Proper := by
    refine List.forall_mem_cons.mpr ⟨⟨by decide, List.forall_mem_singleton.mpr
      (.block houter hfields (by decide) (hcheck (by decide))), by decide⟩,
      List.forall_mem_singleton.mpr ⟨by decide, List.forall_mem_nil _, List.nodup_nil⟩⟩
  have hnames : (ds.flatMap Declaration.names).Nodup := by decide +kernel
  have hall := buildModel_declarations .english hproper hnames
  rw [hsource] at hall
  exact ⟨hsource, hall⟩

end Declared

end DomainModel
