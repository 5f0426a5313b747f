/-
A value written as the argument of an option is the value of the option.

The text is an entity without fields behind one annotation.  Its tree is known from how it is
accepted, so its document can be read off: one entity, whose options hold the value at the
name of the annotation.  Classification goes through the fields of an entity and leaves its
options alone (`analyze_option`).
-/
import DomainModel.Proofs.Build.Rendered
import DomainModel.Proofs.Build.Schema
import DomainModel.Proofs.Grammar.Written

namespace DomainModel

open Grammar
open Lexer (clear_cons isWord mark word)

/-- A text that declares an entity without fields and gives it one option. -/
def annotatedEntity (option entity : String) (argument : List Char) : String :=
  "@" ++ option ++ "(" ++ String.ofList argument ++ ") entity " ++ entity ++ " \x7b\x7d"

namespace Annotated

/-- The tokens of the text, when these are the tokens of its argument. -/
def tokens (option entity : String) (ts : List Token) : List Token :=
  mark .atSign :: word option :: mark .lParen :: (ts ++ [mark .rParen, word "entity", word entity,
    mark .lBrace, mark .rBrace])

/-- The annotation with this argument. -/
def note (option : String) (t : Tree) : Tree :=
  .node .annotationNode [.leaf (mark .atSign), .leaf (word option), .leaf (mark .lParen),
    .node .complexValue [t], .leaf (mark .rParen)]

/-- The entity behind the annotation. -/
def entity (option name : String) (t : Tree) : Tree :=
  .node .entity [note option t, .leaf (word "entity"), .node .name [.leaf (word name)],
    .node .declBody [.leaf (mark .lBrace), .leaf (mark .rBrace)]]

variable {option name : String} {v : Value} {argument : List Char} {ts : List Token} {t : Tree}

theorem cut (hoption : isWord option.toList = true) (hname : isWord name.toList = true)
    (h : Value.ArgumentRead v argument ts t) :
    Lexer.Cut (annotatedEntity option name argument).toList (tokens option name ts) := by
  have hkeyword : isWord "entity".toList = true := by decide
  have hhead {text : String} (h : isWord text.toList = true) (rest : List Char) :
      ∀ c ∈ (text.toList ++ rest).head?, Lexer.isSpace c = false :=
    (Lexer.word_cuts h .nil).head rfl rest
  have hblank (rest : List Char) : Lexer.Clear (' ' :: rest) := clear_cons.mpr ⟨rfl, by decide⟩
  have hbody : Lexer.Cut [' ', '\x7b', '\x7d'] [mark .lBrace, mark .rBrace] :=
    .blank (by simp [Lexer.isSpace]) (.mark rfl (.mark rfl .nil))
  have hentity := Lexer.Cut.word hkeyword (hblank _)
    (.blank (hhead hname _) (Lexer.Cut.word hname (hblank _) hbody))
  have hargument := h.cut (clear_cons.mpr ⟨rfl, by decide⟩)
    ((hentity.blank (hhead hkeyword _)).mark (rfl : Lexer.symbol .rParen = some ')'))
  have hall := (Lexer.Cut.word hoption (clear_cons.mpr ⟨rfl, by decide⟩)
    (hargument.mark (rfl : Lexer.symbol .lParen = some '('))).mark
    (rfl : Lexer.symbol .atSign = some '@')
  simpa [annotatedEntity, tokens] using hall

theorem accepts_note (h : Value.ArgumentRead v argument ts t) (rest : List Token) :
    Accepts atOption (mark .atSign :: word option :: mark .lParen :: (ts ++ mark .rParen :: rest))
      [note option t] rest :=
  Accepts.node rfl (Accepts.seq (Accepts.seq (Accepts.take rfl) (Accepts.expect_word option))
    (Reads.yes rfl (Accepts.seq (Accepts.seq (Accepts.take rfl) (h.accepts rest))
      (Accepts.expect_mark .rParen rfl))))

theorem accepts_body (name : String) (rest : List Token) :
    Accepts (declarationRest .nothing .entity)
      (word "entity" :: word name :: mark .lBrace :: mark .rBrace :: rest)
      [.leaf (word "entity"), .node .name [.leaf (word name)],
        .node .declBody [.leaf (mark .lBrace), .leaf (mark .rBrace)]] rest := by
  have hname : Accepts Grammar.name (word name :: mark .lBrace :: mark .rBrace :: rest)
      [.node .name [.leaf (word name)]] (mark .lBrace :: mark .rBrace :: rest) :=
    Accepts.identifier rfl
  have hbody : Accepts declBody (mark .lBrace :: mark .rBrace :: rest)
      [.node .declBody [.leaf (mark .lBrace), .leaf (mark .rBrace)]] rest :=
    Accepts.node rfl (Reads.yes rfl (Accepts.seq (Accepts.seq (Accepts.take rfl) (Accepts.done rfl))
      (Accepts.expect_mark .rBrace rfl)))
  exact Accepts.seq (Accepts.seq (Accepts.seq (Accepts.take rfl) hname) (Reads.no rfl Reads.nothing))
    hbody

theorem accepts (hoption : option ≠ "import") (h : Value.ArgumentRead v argument ts t) :
    Accepts source (tokens option name ts) [entity option name t] [] := by
  have himport (us : List Token) : Test.holds (mark .atSign :: word option :: us)
      (.both (.next .atSign) (.word 1 ["import"])) = false := by
    have hword : (word option).isTrivia = false := rfl
    have hat : (mark .atSign).isTrivia = false := rfl
    simp [Test.holds, hat, hword, hoption]
  have hnotes : Accepts annotations (tokens option name ts) [note option t]
      [word "entity", word name, mark .lBrace, mark .rBrace] :=
    Accepts.again rfl (accepts_note h _) (Accepts.done rfl)
  have hdeclaration : Accepts declaration (tokens option name ts) [entity option name t] [] :=
    Reads.no rfl (Reads.yes rfl (Accepts.headed rfl (Accepts.seq (Accepts.accept_none rfl) hnotes)
      rfl (accepts_body name [])))
  have hmember : Accepts member (tokens option name ts) [entity option name t] [] :=
    Reads.no rfl (Reads.no (himport _) (Reads.no rfl (Reads.no rfl (Reads.no rfl (Reads.no rfl
      (Reads.no rfl (Reads.no rfl (Reads.yes rfl hdeclaration))))))))
  exact Accepts.seq (Accepts.seq (Reads.no rfl Reads.nothing)
    (Accepts.again rfl hmember (Accepts.done rfl))) Reads.trivia

/-! ### The document -/

/-- The kinds of nodes in a value. -/
def valueKinds : List NodeKind :=
  [.complexValue, .literal, .object, .array, .pair, .arrayPlain, .pairs, .junk]

/-- A value quotes nothing. -/
theorem quotations_value {t : Tree} : ∀ {within : NodeKind}, within ≠ .sourceFile →
    Shaped within t → (∀ k ∈ kindsOf [t], k ∈ valueKinds) → t.quotations = [] := by
  induction t using Tree.induct with
  | leaf => exact fun _ _ _ => rfl
  | node kind children ih =>
      intro within hwithin hshaped hkind
      cases hshaped with
      | node hholds _ _ hchildren =>
      have hmem : kind ∈ valueKinds := hkind kind (List.mem_cons_self ..)
      have hown : (Tree.node kind children).quotation kind = [] ∧ kind ≠ .sourceFile ∧
          ∀ k ∈ NodeKind.holds within kind, k ∈ valueKinds := by
        cases kind <;> first
          | exact absurd hmem (by decide)
          | exact ⟨rfl, by decide, by simp [NodeKind.holds, valueKinds, hwithin]⟩
      have hparts := List.flatMap_eq_nil_iff.mpr fun t (ht : t ∈ Tree.nodes children) =>
        have ht := (List.mem_filter.mp ht).1
        ih t ht hown.2.1 (hchildren t ht) fun k hk => hown.2.2 k (hholds k (kindsOf_mem ht k hk))
      rw [Tree.quotations, hown.1, Tree.quotationsOfAll_eq, hparts, List.nil_append]

theorem shaped_argument (h : Value.ArgumentRead v argument ts t) :
    Shaped .annotationNode (.node .complexValue [t]) :=
  (h.accepts []).shaped _ Sight.all (by decide +kernel) (Sight.mem_all _) _ (List.mem_cons_self ..)

/-- The tree of the text. -/
def tree (option name : String) (t : Tree) : Tree := .node .sourceFile [entity option name t]

theorem quotations_tree (h : Value.ArgumentRead v argument ts t) :
    (tree option name t).quotations = [] := by
  have hvalue := quotations_value (by decide) (shaped_argument h)
    (by simp [kindsOf, valueKinds, Tree.kind?])
  simp [tree, entity, note, Tree.quotations, Tree.quotationsOfAll, Tree.quotation] at hvalue ⊢
  exact hvalue

/-- The one site of the text. -/
def site (option name : String) (t : Tree) : Direct.Site :=
  ⟨.entities, some (tree option name t), .entity, entity option name t⟩

theorem sites_tree (option name : String) (h : Value.ArgumentRead v argument ts t) :
    Direct.sitesBefore none none (tree option name t) = [site option name t] ∧
      Direct.sitesAfter none none (tree option name t) = [site option name t] := by
  cases shaped_argument h with
  | node hholds _ _ hchildren =>
  have ht := hchildren t (List.mem_cons_self ..)
  have hsites (inside : Option Collection) (parent : Option Tree) :=
    silent_sites ht (fun k hk => silent_inside (by decide) k (hholds k hk)) inside parent
  simp [tree, entity, note, site, Direct.sitesBefore, Direct.sitesBeforeAll,
    Direct.sitesAfter, Direct.sitesAfterAll, Direct.siteOf, Direct.collectionOf, hsites]

theorem entities_tree (naming : Naming) (h : Value.ArgumentRead v argument ts t) :
    (Direct.document ⟨naming, []⟩ (tree option name t)).entities =
      [(name, (site option name t).value ⟨naming, []⟩)] := by
  obtain ⟨hbefore, hafter⟩ := sites_tree option name h
  show Dict.arrange (Direct.names .entities _) (Direct.entries _ .entities _) = _
  have hname : (site option name t).name = name := rfl
  rw [Direct.names, Direct.entries, hbefore, hafter]
  simp only [site, decide_true, List.filter_cons_of_pos, List.filter_nil, List.map_cons,
    List.map_nil]
  rw [← site, hname]
  exact Dict.arrange_of_perm (List.Perm.refl [(name, _)]) (List.nodup_singleton _)

theorem options_site (naming : Naming) (h : Value.ArgumentRead v argument ts t) :
    ((site option name t).value ⟨naming, []⟩).get? "options" = some (.map [(option, v)]) := by
  have hnotes : Direct.notesIn (entity option name t).children = [(option, v)] := by
    have hvalue := h.value
    simp [entity, note, Direct.notesIn, Tree.children, Tree.isNode, Tree.kind?,
      Tree.identifier?, Tree.childToken?, Tree.childTokens, Tree.token?, word,
      Tree.annotationValue, Tree.argumentNode?, Tree.child?, hvalue]
  have hslots : Dict.get? (Direct.slots .entity (entity option name t)) "options" =
      some (.map (Dict.ofList (Direct.notesIn (entity option name t).children))) := rfl
  rw [hnotes] at hslots
  exact get?_finished_slot hslots

end Annotated

/-! ### The analysis -/

/-- No identifier has a dot. -/
theorem dotless_of_isWord {name : String} (h : isWord name.toList = true) : Dotless name :=
  fun hdot => absurd (Lexer.isWordPart_of_mem h hdot) (by decide)

/-- The options of an entity stay what they are when its fields are classified. -/
theorem lookup?_option {m : Model} {name option : String} {node v : Value} {noted : Members}
    (hdecls : ∀ c ∈ Collection.withFields,
      Classification.Declarations (m.document.collection c))
    (hname : Dotless name) (hoption : Dotless option)
    (hentity : Dict.get? m.document.entities name = some node)
    (hnoted : node.get? "options" = some (.map noted)) (hv : Dict.get? noted option = some v) :
    m.classify.value.lookup? ("entities." ++ name ++ ".options." ++ option) = some v := by
  have hentities : "entities" ≠ "" := by decide
  have hdecl := Path.join_ne_empty hentities name
  have hoptions := Path.join_ne_empty hdecl "options"
  have hpath : "entities." ++ name ++ ".options." ++ option =
      Path.join (Path.join (Path.join "entities" name) "options") option := by
    rw [Path.join, if_neg (by simpa using hoptions), Path.join, if_neg (by simpa using hdecl),
      Path.join, if_neg (by simp)]
    apply String.toList_inj.mp
    simp
  have hsteps : Path.steps ("entities." ++ name ++ ".options." ++ option) =
      ["entities", name, "options", option] := by
    rw [hpath, Path.steps_join hoptions hoption, Path.steps_join hdecl (by decide),
      Path.steps_join hentities hname]
    rfl
  have hcollection : Dict.get? (m.classify.document.collection .entities) name =
      some (Classification.declaration (SymbolTable.ofDocument m.document) node) := by
    rw [Classification.collection_classify hdecls, if_pos (by decide), Classification.get?_onValues,
      show m.document.collection .entities = m.document.entities from rfl, hentity]
    rfl
  have hnode := Classification.get?_declaration (SymbolTable.ofDocument m.document) node "options"
  rw [if_neg (by decide), hnoted] at hnode
  obtain ⟨members, hmap, hget⟩ := Classification.eq_map_of_get? hnode
  rw [Value.lookup?, hsteps, Value.follow?]
  show (m.classify.document.toValue.get? Collection.entities.key).bind _ = _
  rw [Document.get?_key]
  show (Dict.get? (m.classify.document.collection .entities) name).bind _ = _
  rw [hcollection, hmap]
  show (Dict.get? members "options").bind _ = _
  rw [hget]
  show (Dict.get? noted option).bind _ = _
  rw [hv]
  rfl

/-- Checking leaves the values as they are. -/
theorem value_validate (options : Options) (m : Model) :
    (m.classify.validate options).value = m.classify.value := by
  have hsymbols : m.classify.symbols = some (SymbolTable.ofDocument m.document) := rfl
  rw [validate_eq options hsymbols, Model.value, Model.value]

/-- **A value written as the argument of an option is the value of the option**, in each of
the ways in which it can be written. -/
theorem analyze_option (options : Options) (naming : Naming) (style : KeyStyle)
    {option entity : String} {v : Value} {argument : List Char}
    (hoption : isWord option.toList = true) (himport : option ≠ "import")
    (hentity : isWord entity.toList = true) (hv : v.Writable)
    (hargument : v.Argument style argument) :
    ∃ a, analyze options naming (annotatedEntity option entity argument) = .ok a ∧
      a.errors = [] ∧ a.model.get? ("entities." ++ entity ++ ".options." ++ option) = some v := by
  obtain ⟨ts, t, hread⟩ := hargument.read hv
  have hcut := Annotated.cut hoption hentity hread
  have hundocumented : ∀ u ∈ Annotated.tokens option entity ts, u.kind ≠ .javadoc := by
    have hmarks : ∀ u ∈ [mark .rParen, word "entity", word entity, mark .lBrace, mark .rBrace],
        u.kind ≠ .javadoc := by simp [word]
    have hfront : ∀ u ∈ [mark .atSign, word option, mark .lParen], u.kind ≠ .javadoc := by
      simp [word]
    exact List.forall_mem_append.mpr
      ⟨hfront, List.forall_mem_append.mpr ⟨hread.undocumented, hmarks⟩⟩
  have haccepts : Accepts source (Annotated.tokens option entity ts)
      [Annotated.entity option entity t] [] := Annotated.accepts himport hread
  obtain ⟨hcomplaints, hbare⟩ := parse_of_accepts hcut hundocumented haccepts
  rw [String.ofList_toList] at hcomplaints hbare
  have hquotations : (parse (annotatedEntity option entity argument)).tree.quotations =
      (Annotated.tree option entity t).quotations := by
    -- A text that is read as this tree quotes as often as it does.
    have hbares : (parse (annotatedEntity option entity argument)).tree.bare =
        (Annotated.tree option entity t).bare := by
      rw [Annotated.tree, ← hbare, Tree.bare_bare]
    have hlength := (Tree.settled _ _ hbares).1
    rw [Annotated.quotations_tree hread] at hlength ⊢
    exact List.length_eq_zero_iff.mp hlength
  have hdocument := document_of_accepts naming hcut hundocumented haccepts
    (by rw [String.ofList_toList]; exact hquotations)
  rw [String.ofList_toList] at hdocument
  have hdecls : ∀ c ∈ Collection.withFields, Classification.Declarations
      ((Direct.model naming (annotatedEntity option entity argument)).document.collection c) :=
    fun c hc => declarations_draft _ (shaped_parse _) (Tree.plain_parse _) hc
  have hentities : Dict.get?
      (Direct.model naming (annotatedEntity option entity argument)).document.entities entity =
      some ((Annotated.site option entity t).value ⟨naming, []⟩) := by
    rw [hdocument, ← Annotated.tree, Annotated.entities_tree naming hread, Dict.get?_cons, if_pos rfl]
  have hlookup := lookup?_option hdecls (dotless_of_isWord hentity) (dotless_of_isWord hoption)
    hentities (Annotated.options_site naming hread) (by rw [Dict.get?_cons, if_pos rfl])
  have hnull : v.isNull = false := by
    cases hv with
    | scalar h => cases h <;> rfl
    | list | map => rfl
  refine ⟨_, analyze_eq options naming _, ?_, ?_⟩
  · rw [Parse.errors, hcomplaints, List.map_nil]
  · rw [Model.get?, value_validate, hlookup, Option.filter_some, hnull, if_pos (Bool.not_false)]

/-- Two pairs without braces, one key of them between quotes, with a list and a mapping as their
values. -/
theorem analyze_option_pairs :
    let source := "@x(\"a \\\"b\\\"\": [-5, 1.50, true], c: \x7b\"\\\\\": \"é\"\x7d) entity A \x7b\x7d"
    let v := Value.map [("a \"b\"", .list [.int (-5), .decimal ⟨150, 2⟩, .bool true]),
      ("c", .map [("\\", .string "é")])]
    ∃ a, analyze {} .english source = .ok a ∧ a.errors = [] ∧
      a.model.get? "entities.A.options.x" = some v := by
  intro source v
  let style : KeyStyle := ⟨fun key => key == "c", fun key h => by rw [beq_iff_eq.mp h]; decide⟩
  have hitems : (Value.list [.int (-5), .decimal ⟨150, 2⟩, .bool true]).Writable := by
    refine .list (List.forall_mem_cons.mpr ⟨.scalar (.int (by decide)), ?_⟩)
    exact List.forall_mem_cons.mpr ⟨.scalar (.decimal ⟨by decide, by decide, by decide⟩),
      List.forall_mem_singleton.mpr (.scalar (.bool true))⟩
  have hinner : (Value.map [("\\", .string "é")]).Writable :=
    .map (List.nodup_singleton _) (List.forall_mem_singleton.mpr (.scalar (.string _)))
  have hv : v.Writable := .map (by decide) (List.forall_mem_cons.mpr
    ⟨hitems, List.forall_mem_singleton.mpr hinner⟩)
  have hsource : source = annotatedEntity "x" "A" (Value.writtenPairs style
      [("a \"b\"", .list [.int (-5), .decimal ⟨150, 2⟩, .bool true]),
        ("c", .map [("\\", .string "é")])]) := by
    decide +kernel
  rw [hsource]
  exact analyze_option {} .english style (by decide) (by decide) (by decide) hv
    (.pairs (List.cons_ne_nil _ _))

end DomainModel
