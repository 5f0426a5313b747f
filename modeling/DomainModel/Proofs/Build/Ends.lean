/-
Recorded spans begin and end with proper tokens.

A node begins with the first proper token behind its opening, and in a text without errors it
ends with one as well (`Grammar.begins_proper`, `Grammar.tight_parse`).  Nothing is recorded
but the spans of nodes, of doc comments, which are proper tokens themselves, and of runs from
one child of a node to another (`placed_locations`).  So no recorded span begins or ends
with the blanks or the comments around it: `parse_bounded` says this of the nodes of the tree and
of the spans in the index.

Only the ends are meant here.  Which node a path stands for, and so whether its span is
that of the right one, is the matter of `Coherence`.
-/
import DomainModel.Proofs.Build.Spans
import DomainModel.Proofs.Grammar.Tight

namespace DomainModel

open DomainModel.Tree (opens)

/-- The first and the last token of a tree, neither of which is trivia. -/
structure Tree.Bounded (t : Tree) (first last : Token) : Prop where
  head : t.leaves.head? = some first
  getLast : t.leaves.getLast? = some last
  properHead : first.isTrivia = false
  properLast : last.isTrivia = false

theorem Tree.Bounded.range {t : Tree} {first last : Token} (h : t.Bounded first last) {r : Range}
    (hr : t.range? = some r) : r = ⟨first.start, last.stop⟩ := by
  rw [Tree.range?, h.head, h.getLast] at hr
  exact (Option.some.inj hr).symm

/-- A span runs from the first token of a node to the last, or is that of a doc comment, or runs
from the child that opens a run to the last token of a child behind it; and the tokens at
its ends are no trivia.  The node may be any of the tree: this is about the ends of a span, not
about the path that it is recorded for. -/
inductive Snug (source : String) : Span → Prop
  | node {t first last} (h : InnerNode source t) (hbounded : t.Bounded first last) :
      Snug source (Source.span source.toList ⟨first.start, last.stop⟩)
  | comment {t token} (h : Piece source t) (hmem : .leaf token ∈ t.children)
      (hkind : token.kind = .javadoc) (hproper : token.isTrivia = false) :
      Snug source (Source.span source.toList ⟨token.start, token.stop⟩)
  | run {kind children t u n first before behind last} (h : Piece source (.node kind children))
      (ht : children[children.findIdx (opens kind)]? = some t) (hu : children[n]? = some u)
      (hle : children.findIdx (opens kind) ≤ n) (hfirst : t.Bounded first before)
      (hlast : u.Bounded behind last) :
      Snug source (Source.span source.toList ⟨first.start, last.stop⟩)

section
variable {source : String} (hnone : (parse source).complaints = [])
include hnone

/-- Without complaints, every node but the whole has a first and a last proper token. -/
theorem InnerNode.bounded {t : Tree} (h : InnerNode source t) :
    ∃ first last, t.Bounded first last := by
  obtain ⟨last, hlast, hproper⟩ := (Grammar.tight_parse hnone h.inside).last h.isNode
  have hne : t.leaves ≠ [] := List.ne_nil_of_mem (List.mem_of_getLast? hlast)
  have hfirst : t.leaves.head? = some (t.leaves.head hne) := List.head?_eq_some_head hne
  exact ⟨_, last, hfirst, hlast, Grammar.begins_proper h.inside h.isNode _ hfirst, hproper⟩

/-- **Whatever is placed in a text without complaints has proper ends.** -/
theorem Placed.snug {span : Span} (h : Placed source span) : Snug source span := by
  cases h with
  | node h hr =>
      obtain ⟨first, last, hbounded⟩ := h.bounded hnone
      rw [hbounded.range hr]
      exact .node h hbounded
  | comment h hmem hkind =>
      refine .comment h hmem hkind ?_
      rw [Token.isTrivia, hkind]
      rfl
  | @run kind children t u n r r' h ht hu hle hnode hr hr' =>
      obtain ⟨before, after, hsplit, -⟩ := h.stretch
      obtain ⟨hstart, hstop⟩ := range?_mono (contiguous_parse source) hsplit hle ht hu hr hr'
      -- Only nodes open runs.
      have hopens : opens kind t = true := by
        obtain ⟨hlt, rfl⟩ := List.getElem?_eq_some_iff.mp ht
        exact List.findIdx_getElem
      have hinner : InnerNode source t :=
        ⟨Tree.inside_of_mem h (List.mem_of_getElem? ht), isNode_of_opens hopens⟩
      have hinner' : InnerNode source u := ⟨Tree.inside_of_mem h (List.mem_of_getElem? hu), hnode⟩
      obtain ⟨first, _, hfirst⟩ := hinner.bounded hnone
      obtain ⟨_, last, hlast⟩ := hinner'.bounded hnone
      have hcover : r.cover r' = ⟨first.start, last.stop⟩ := by
        rw [Range.cover, Nat.min_eq_left hstart, Nat.max_eq_right hstop, hfirst.range hr,
          hlast.range hr']
      rw [Source.cover_span, hcover]
      exact .run h ht hu hle hfirst hlast

end

/-- **Nodes and recorded spans are tight.**  Whatever the text, a node that is not empty begins
with a proper token.  If the text has no errors, every node has a first and a last proper
token, and every span of its model runs from one proper token of the tree to another, with
which a node, a comment or a run of nodes begins and ends.  The whole text is no such node: it
has all the trivia. -/
theorem parse_bounded (naming : Naming) (source : String) :
    (∀ t : Tree, InnerNode source t → t.leaves ≠ [] →
      ∃ first, t.leaves.head? = some first ∧ first.isTrivia = false) ∧
    ((parse source).errors source = [] →
      (∀ t : Tree, InnerNode source t → ∃ first last, t.Bounded first last) ∧
      ∃ m, buildModel naming source = .ok m ∧
        ∀ path span, m.location? path = some span → Snug source span) := by
  refine ⟨fun t h hne => ?_, fun herrors => ?_⟩
  · have hfirst : t.leaves.head? = some (t.leaves.head hne) := List.head?_eq_some_head hne
    exact ⟨_, hfirst, Grammar.begins_proper h.inside h.isNode _ hfirst⟩
  · have hnone : (parse source).complaints = [] := List.map_eq_nil_iff.mp herrors
    refine ⟨fun t h => h.bounded hnone, _,
      buildModel_eq naming source, fun path span hspan => ?_⟩
    obtain ⟨entry, hentry, rfl⟩ := Option.map_eq_some_iff.mp hspan
    exact ((placed_locations naming source).2 _ (Dict.mem_of_get? hentry)).snug hnone

/-- The span of a field ends with the block in it, and the comment behind is no part of it. -/
theorem parse_bounded_block :
    let source := "entity A \x7b b B \x7b c D /* last */ \x7d /* none */ \x7d"
    (parse source).errors source = [] ∧ ∃ m, buildModel .english source = .ok m ∧
      ∃ span, m.location? "entities.A.fields.b" = some span ∧ Snug source span ∧
        Source.textIn source.toList span.range = "b B \x7b c D /* last */ \x7d".toList := by
  intro source
  have herrors : (parse source).errors source = [] := by decide +kernel
  obtain ⟨-, m, hm, hsnug⟩ := (parse_bounded .english source).2 herrors
  obtain rfl := Except.ok.inj ((buildModel_eq .english source).symm.trans hm)
  have hlocated : ((Direct.model .english source).location? "entities.A.fields.b").map
      (fun span => Source.textIn source.toList span.range) =
        some "b B \x7b c D /* last */ \x7d".toList := by
    decide +kernel
  obtain ⟨span, hspan, htext⟩ := Option.map_eq_some_iff.mp hlocated
  exact ⟨herrors, _, hm, span, hspan, hsnug _ _ hspan, htext⟩

end DomainModel
