/-
Doc comments from the text into the document.

The comment that `Text.written` lays out is one token, because between its delimiters there are
units alone: every line begins behind a star with a blank, and the last star of a line that ends
in stars has the line feed for its partner.  One line feed behind the comment does not set it
off, so it leads the declaration on the next line, and the document has the lines that were
written as the doc comment of that (`documented_entity`).
-/
import DomainModel.Proofs.Build.Spacing
import DomainModel.Proofs.Text.DocComment
import DomainModel.Proofs.Token.Closing
import DomainModel.Proofs.Token.Cut

namespace DomainModel

open Grammar
open Lexer (Cuts)

/-! ### The comment is one token -/

namespace Comment

/-- A comment that begins with one more star and goes on with something else is a doc comment. -/
theorem measure_units {cs : List Char} (h : Units cs) {c : Char} (hstar : c ≠ '*') (hslash : c ≠ '/')
    (rest : List Char) :
    measure ('*' :: c :: (cs ++ '*' :: '/' :: rest)) = (.javadoc, cs.length + 6) := by
  have hstars : ('*' :: c :: (cs ++ '*' :: '/' :: rest)).takeWhile (· == '*') = ['*'] := by
    simp [hstar]
  unfold measure
  simp only [hstars, List.length_singleton, List.drop_one, List.tail_cons, h.body_eq]
  rw [if_neg Nat.one_ne_zero, if_pos trivial,
    show 2 + 1 + 1 + (cs.length + 2) = cs.length + 6 by omega]

theorem units_starred {ls : List (List Char)} (h : ∀ l ∈ ls, ¬ ['*', '/'] <:+: l) :
    Units ((ls.map Text.starred).flatMap (· ++ ['\n']) ++ [' ']) := by
  induction ls with
  | nil => exact .plain (by decide) .nil
  | cons l ls ih =>
      obtain ⟨hl, hls⟩ := List.forall_mem_cons.mp h
      rw [List.map_cons, List.flatMap_cons, List.append_assoc, List.append_assoc]
      exact .plain (by decide) (.star (by decide) (.line hl (ih hls)))

end Comment

theorem Lexer.cuts_written {ls : List (List Char)} (h : ∀ l ∈ ls, ¬ ['*', '/'] <:+: l)
    (rest : List Char) : Cuts .javadoc (Text.written ls) rest := by
  have hunits := Comment.units_starred h
  have hinner : Text.innerText ls =
      '\n' :: ((ls.map Text.starred).flatMap (· ++ ['\n']) ++ [' ']) := rfl
  generalize (ls.map Text.starred).flatMap (· ++ ['\n']) ++ [' '] = cs at hunits hinner
  refine ⟨'/', '*' :: '*' :: '\n' :: (cs ++ ['*', '/']), ?_, ?_⟩
  · rw [Text.written, hinner]
    rfl
  · have hopening : ∀ behind, measure '/' ('*' :: behind) =
        ((Comment.measure behind).1, (Comment.measure behind).2 - 1) := fun _ => rfl
    have hmeasure := Comment.measure_units hunits (c := '\n') (by decide) (by decide) rest
    simp only [List.cons_append, List.append_assoc, List.nil_append, hopening, hmeasure,
      List.length_cons, List.length_append, List.length_nil]
    rfl

/-! ### The entity behind it -/

/-- The tokens of an entity on the next line. -/
def entityTokens (n : Nat) : List Token :=
  [⟨.whitespace, "\n", n⟩, ⟨.ident, "entity", n + 1⟩, ⟨.whitespace, " ", n + 7⟩,
    ⟨.ident, "A", n + 8⟩, ⟨.whitespace, " ", n + 9⟩, ⟨.lBrace, "\x7b", n + 10⟩,
    ⟨.rBrace, "\x7d", n + 11⟩]

theorem tokensFrom_entity (n : Nat) :
    Lexer.tokensFrom n "\nentity A \x7b\x7d".toList = entityTokens n := by
  have hclose : Cuts .rBrace ['\x7d'] [] := ⟨'\x7d', [], rfl, by decide⟩
  have hopen : Cuts .lBrace ['\x7b'] (['\x7d'] ++ []) := ⟨'\x7b', [], rfl, by decide⟩
  have hgap : Cuts .whitespace [' '] (['\x7b'] ++ (['\x7d'] ++ [])) := ⟨' ', [], rfl, by decide⟩
  have hname : Cuts .ident ['A'] ([' '] ++ (['\x7b'] ++ (['\x7d'] ++ []))) :=
    ⟨'A', [], rfl, by decide⟩
  have hblank : Cuts .whitespace [' '] (['A'] ++ ([' '] ++ (['\x7b'] ++ (['\x7d'] ++ [])))) :=
    ⟨' ', [], rfl, by decide⟩
  have hkeyword : Cuts .ident "entity".toList
      ([' '] ++ (['A'] ++ ([' '] ++ (['\x7b'] ++ (['\x7d'] ++ []))))) := ⟨'e', _, rfl, by decide⟩
  have hline : Cuts .whitespace ['\n'] ("entity".toList ++
      ([' '] ++ (['A'] ++ ([' '] ++ (['\x7b'] ++ (['\x7d'] ++ [])))))) := ⟨'\n', [], rfl, by decide⟩
  show Lexer.tokensFrom n (['\n'] ++ ("entity".toList ++
      ([' '] ++ (['A'] ++ ([' '] ++ (['\x7b'] ++ (['\x7d'] ++ []))))))) = _
  rw [hline.tokensFrom, hkeyword.tokensFrom, hblank.tokensFrom, hname.tokensFrom, hgap.tokensFrom,
    hopen.tokensFrom, hclose.tokensFrom, Lexer.tokensFrom]
  rfl

/-- The tree of the entity with the comment. -/
def entityTree (comment : String) (n : Nat) : Tree :=
  .node .entity [.leaf ⟨.javadoc, comment, 0⟩, .leaf ⟨.whitespace, "\n", n⟩,
    .leaf ⟨.ident, "entity", n + 1⟩, .leaf ⟨.whitespace, " ", n + 7⟩,
    .node .name [.leaf ⟨.ident, "A", n + 8⟩], .leaf ⟨.whitespace, " ", n + 9⟩,
    .node .declBody [.leaf ⟨.lBrace, "\x7b", n + 10⟩, .leaf ⟨.rBrace, "\x7d", n + 11⟩]]

/-- The comment is read with the entity.  The tests look at the kinds and the words of tokens, so
what it says and where the entity begins can be left open. -/
theorem readSource_entity (comment : String) (n : Nat) :
    readSource (⟨.javadoc, comment, 0⟩ :: entityTokens n) = ⟨[entityTree comment n], [], []⟩ := by
  have hname : Reads name ((entityTokens n).drop 2)
      ⟨[.leaf ⟨.whitespace, " ", n + 7⟩, .node .name [.leaf ⟨.ident, "A", n + 8⟩]], [],
        (entityTokens n).drop 4⟩ := .yes rfl (.node .take)
  have hbody : Reads declBody ((entityTokens n).drop 4)
      ⟨[.leaf ⟨.whitespace, " ", n + 9⟩,
        .node .declBody [.leaf ⟨.lBrace, "\x7b", n + 10⟩, .leaf ⟨.rBrace, "\x7d", n + 11⟩]], [], []⟩ :=
    .node (.yes rfl (.seq (.seq .take (.done rfl)) (.yes rfl .take)))
  have hrest : Reads (declarationRest .nothing .entity) (entityTokens n) _ :=
    .seq (.seq (.seq .take hname) (.no rfl .nothing)) hbody
  have hentity : Reads declaration (⟨.javadoc, comment, 0⟩ :: entityTokens n) _ :=
    .yes rfl (.headed .take rfl hrest)
  -- What begins with a comment is none of the other members.
  have hmember : Reads member (⟨.javadoc, comment, 0⟩ :: entityTokens n)
      ⟨[entityTree comment n], [], []⟩ :=
    .no rfl (.no rfl (.no rfl (.no rfl (.no rfl (.no rfl (.no rfl (.no rfl (.yes rfl hentity))))))))
  -- One line break does not set the comment off.
  have hbreaks : Test.holds (⟨.javadoc, comment, 0⟩ :: entityTokens n)
      (.both (.next .javadoc) (.either (.breaksBehind 2) (.ends 1))) = false := by
    show (true && (decide (2 ≤ ("\n".toList ++ []).count '\n') || false)) = false
    decide
  have hsource : Reads source (⟨.javadoc, comment, 0⟩ :: entityTokens n)
      ⟨[entityTree comment n], [], []⟩ :=
    .seq (.seq (.no hbreaks .nothing) (.again rfl hmember (.done rfl))) .trivia
  exact (reads_readSource _).unique hsource

/-! ### The document -/

/-- What is asked of a model is asked of its document. -/
theorem Model.getString?_congr {m m' : Model} (h : m.document = m'.document) (path : String) :
    m.getString? path = m'.getString? path := by
  rw [Model.getString?, Model.get?, Model.value, h]
  rfl

/-- The text at a member of a declaration. -/
theorem Model.getString?_member {m : Model} {c : Collection} {name key text : String}
    {node : Members} (hname : Dotless name) (hkey : Dotless key)
    (hnode : Dict.get? (m.document.collection c) name = some (.map node))
    (htext : Dict.get? node key = some (.string text)) :
    m.getString? (Path.join (Path.join c.key name) key) = some text := by
  have hkeyed : c.key ≠ "" ∧ Path.steps c.key = [c.key] := by cases c <;> decide
  have hdecl := Path.join_ne_empty hkeyed.1 name
  have hlookup : m.value.lookup? (Path.join (Path.join c.key name) key) = some (.string text) := by
    rw [Value.lookup?, Path.steps_join hdecl hkey, Path.steps_join hkeyed.1 hname, hkeyed.2]
    show (m.value.get? c.key).bind _ = _
    rw [show m.value.get? c.key = some (.map (m.document.collection c)) from
      Document.get?_key m.document c]
    show (Dict.get? (m.document.collection c) name).bind _ = _
    rw [hnode]
    show (Dict.get? node key).bind _ = _
    rw [htext]
    rfl
  rw [Model.getString?, Model.get?, hlookup]
  rfl

/-- Classification leaves the members of declarations that are texts as they are. -/
theorem Model.getString?_classify {m : Model} (hdecls : ∀ c ∈ Collection.withFields,
    Classification.Declarations (m.document.collection c)) {c : Collection}
    (hc : c ∈ Collection.withFields) {name key text : String} {node : Members}
    (hname : Dotless name) (hkey : Dotless key) (hfields : key ≠ "fields")
    (hnode : Dict.get? (m.document.collection c) name = some (.map node))
    (htext : Dict.get? node key = some (.string text)) :
    m.classify.getString? (Path.join (Path.join c.key name) key) = some text := by
  have hclassified := Classification.collection_classify hdecls c
  rw [if_pos hc] at hclassified
  have hnode' : Dict.get? (m.classify.document.collection c) name =
      some (Classification.declaration (SymbolTable.ofDocument m.document) (.map node)) := by
    rw [hclassified, Classification.get?_onValues, hnode]
    rfl
  refine Model.getString?_member hname hkey hnode' ?_
  rw [Dict.get?_modify, if_neg hfields, htext]

/-- The entity has what the comment says for its doc comment. -/
theorem document_entity (input : BuildInput) (comment : String) (n : Nat) :
    ∃ node, Dict.get? ((Direct.document input
        (.node .sourceFile [entityTree comment n])).collection .entities) "A" = some (.map node) ∧
      Dict.get? node "javadoc" = some (.string (String.ofList (Text.docText comment.toList))) :=
  ⟨_, rfl, rfl⟩

/-- The source of an entity with lines in its doc comment. -/
def documentedEntity (ls : List (List Char)) : String :=
  String.ofList (Text.written ls) ++ "\nentity A \x7b\x7d"

section
variable {ls : List (List Char)} (h : Text.Prose ls)
include h

theorem scan_documentedEntity : ∃ n, scan (documentedEntity ls) =
    ⟨.javadoc, String.ofList (Text.written ls), 0⟩ :: entityTokens n := by
  rw [scan, documentedEntity, String.toList_append, String.toList_ofList,
    (Lexer.cuts_written h.unclosed _).tokensFrom]
  exact ⟨_, congrArg _ (tokensFrom_entity _)⟩

/-- **A doc comment comes back from the document.**  Lines in front of an entity are one token,
the text has no errors, and the entity has the lines for its doc comment, before and after
classification. -/
theorem documented_entity (options : Options) (naming : Naming) :
    (scan (documentedEntity ls)).filter (·.kind == .javadoc) =
        [⟨.javadoc, String.ofList (Text.written ls), 0⟩] ∧
      (parse (documentedEntity ls)).errors (documentedEntity ls) = [] ∧
      (∃ m, buildModel naming (documentedEntity ls) = .ok m ∧
        m.getString? "entities.A.javadoc" = some (String.ofList (Text.joinWith ['\n'] ls))) ∧
      ∃ a, analyze options naming (documentedEntity ls) = .ok a ∧ a.errors = [] ∧
        a.model.getString? "entities.A.javadoc" =
          some (String.ofList (Text.joinWith ['\n'] ls)) := by
  obtain ⟨n, hscan⟩ := scan_documentedEntity h
  have hread : readSource (scan (documentedEntity ls)) =
      ⟨[entityTree (String.ofList (Text.written ls)) n], [], []⟩ := by
    rw [hscan, readSource_entity]
  have herrors : (parse (documentedEntity ls)).errors (documentedEntity ls) = [] := by
    rw [parse, hread]
    rfl
  have hdocument : (Direct.model naming (documentedEntity ls)).document = Direct.document
      ⟨naming, (documentedEntity ls).toList⟩
        (.node .sourceFile [entityTree (String.ofList (Text.written ls)) n]) := by
    refine (draft_document _ (shaped_parse _)).trans ?_
    rw [parse, hread]
  obtain ⟨node, hnode, htext⟩ := document_entity ⟨naming, (documentedEntity ls).toList⟩
    (String.ofList (Text.written ls)) n
  rw [← hdocument] at hnode
  rw [String.toList_ofList, Text.docText_written h] at htext
  have hpath : "entities.A.javadoc" =
      Path.join (Path.join Collection.entities.key "A") "javadoc" := by decide
  rw [hpath]
  refine ⟨?_, herrors, ⟨_, buildModel_eq naming _, ?_⟩,
    ⟨_, analyze_eq options naming _, herrors, ?_⟩⟩
  · rw [hscan, List.filter_cons_of_pos rfl]
    rfl
  · exact Model.getString?_member (by decide) (by decide) hnode htext
  · rw [Model.getString?_congr (document_analyzed options (Direct.model naming _))]
    exact Model.getString?_classify (declarations_model naming _) (by decide) (by decide)
      (by decide) (by decide) hnode htext

end

/-- Stars, indentation and an empty line are kept. -/
theorem documented_entity_stars :
    let ls := ["*** Title **".toList, [], "  * indented".toList, "**".toList]
    Text.Prose ls ∧ ∃ a, analyze {} .english (documentedEntity ls) = .ok a ∧
      a.errors = [] ∧ a.model.getString? "entities.A.javadoc" =
        some "*** Title **\n\n  * indented\n**" := by
  intro ls
  have h : Text.Prose ls :=
    ⟨by decide +kernel, by decide +kernel, by decide +kernel, by decide +kernel, by decide +kernel,
      by decide +kernel⟩
  have hjoined : String.ofList (Text.joinWith ['\n'] ls) = "*** Title **\n\n  * indented\n**" := by
    decide +kernel
  obtain ⟨a, ha, herrors, hjavadoc⟩ := (documented_entity h {} .english).2.2.2
  rw [hjoined] at hjavadoc
  exact ⟨h, a, ha, herrors, hjavadoc⟩

end DomainModel
