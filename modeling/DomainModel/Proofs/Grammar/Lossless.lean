/-
A tree is its text.

The reader takes every token once and stops only when none is left, so the leaves of the
tree of a text are the tokens of the text.  From there the tree spells the text, and the
bytes at which a leaf lies can be counted in two ways with one result: what the lexer
noted down, and the length of everything to the left of the leaf.

Every part of the tree is a stretch of these leaves.  So its range is cut from the text at
two boundaries between characters, and the table of lines has an answer for both of them.
-/
import DomainModel.Proofs.Grammar.Progress
import DomainModel.Proofs.Token.Scan

namespace DomainModel

open Source (byteLength byteLength_append byteLength_toList)

namespace Tree

/-- Induction over trees, with the hypothesis for all children at once. -/
theorem induct {P : Tree → Prop} (leaf : ∀ t, P (.leaf t))
    (node : ∀ kind children, (∀ t ∈ children, P t) → P (.node kind children)) : ∀ t, P t
  | .leaf t => leaf t
  | .node kind children => node kind children (all children)
where
  all : ∀ children : List Tree, ∀ t ∈ children, P t
    | [], _, h => nomatch h
    | child :: rest, t, h =>
      (List.mem_cons.mp h).elim (fun heq => heq ▸ induct leaf node child)
        (fun hrest => all rest t hrest)

/-- `s` is a part of a tree: the tree itself, a child, a child of a child, and so on. -/
inductive Part (s : Tree) : Tree → Prop
  | whole : Part s s
  | inside {kind children t} (hmem : t ∈ children) (hpart : Part s t) :
      Part s (.node kind children)

theorem Part.trans {s t u : Tree} (h : Part s t) (h' : Part t u) : Part s u := by
  induction h' with
  | whole => exact h
  | inside hmem _ ih => exact .inside hmem ih

/-- The leaves of a part are a stretch of the leaves of the tree. -/
theorem Part.leaves_split {s t : Tree} (h : Part s t) :
    ∃ before after, t.leaves = before ++ s.leaves ++ after := by
  induction h with
  | whole => exact ⟨[], [], by simp⟩
  | inside hmem _ ih =>
      obtain ⟨before, after, hsplit⟩ := ih
      obtain ⟨front, back, rfl⟩ := List.append_of_mem hmem
      refine ⟨leavesOfAll front ++ before, after ++ leavesOfAll back, ?_⟩
      rw [leaves, Grammar.leavesOfAll_append, leavesOfAll, hsplit]
      simp only [List.append_assoc]

theorem text_toList (t : Tree) : t.text.toList = charsOf t.leaves := by
  rw [text, String.toList_join, List.flatMap_map]
  rfl

end Tree

/-- The tokens of a contiguous row end where its characters do. -/
theorem Contiguous.stop_last {start : Nat} {ts : List Token} {t : Token} (h : Contiguous start ts)
    (hlast : ts.getLast? = some t) : t.stop = start + byteLength (charsOf ts) := by
  obtain ⟨before, rfl⟩ := List.getLast?_eq_some_iff.mp hlast
  rw [Token.stop, contiguous_split h, charsOf_append, byteLength_append, Nat.add_assoc]
  simp [byteLength_toList]

theorem Contiguous.tail {start : Nat} {before after : List Token}
    (h : Contiguous start (before ++ after)) :
    Contiguous (start + byteLength (charsOf before)) after := by
  induction before generalizing start with
  | nil => exact h
  | cons t before ih =>
      obtain ⟨ht, hrest⟩ := h
      have := ih hrest
      rwa [Token.stop, ht, Nat.add_assoc, ← byteLength_toList, ← byteLength_append,
        ← charsOf_cons] at this

theorem Contiguous.front {start : Nat} {before after : List Token}
    (h : Contiguous start (before ++ after)) : Contiguous start before := by
  induction before generalizing start with
  | nil => trivial
  | cons t before ih => exact ⟨h.1, ih h.2⟩

theorem leaves_parse (source : String) : (parse source).tree.leaves = scan source := by
  have h := (Grammar.reads_readSource (scan source)).tokens_eq
  rwa [Grammar.Reading.tokens, Grammar.readSource_rest, List.append_nil] at h

/-- **Parsing loses nothing.**  The leaves of the tree of a text are its tokens, each once
and in order; the tree spells the text; and the bytes under a leaf, counted from what is to
the left of it, are those that the lexer noted. -/
theorem parse_lossless (source : String) :
    (parse source).tree.leaves = scan source ∧
      (parse source).tree.text = source ∧
      ∀ before t after, (parse source).tree.leaves = before ++ t :: after →
        t.range = ⟨byteLength (charsOf before), byteLength (charsOf (before ++ [t]))⟩ := by
  have hleaves := leaves_parse source
  refine ⟨hleaves, ?_, ?_⟩
  · rw [← String.toList_inj, Tree.text_toList, hleaves, scan_chars]
  · intro before t after hsplit
    have hstart : t.start = byteLength (charsOf before) := by
      have h := scan_contiguous source
      rw [← hleaves, hsplit] at h
      rw [contiguous_split h, Nat.zero_add]
    rw [Token.range, Token.stop, hstart, charsOf_append, byteLength_append]
    simp [byteLength_toList]

/-- The range of a part of a tree lies between two boundaries of the text. -/
theorem range?_boundaries {source : String} {part : Tree} {range : Range}
    (hpart : part.Part (parse source).tree) (hrange : part.range? = some range) :
    ∃ front middle back : List Char, source.toList = front ++ middle ++ back ∧
      range = ⟨byteLength front, byteLength (front ++ middle)⟩ := by
  obtain ⟨before, after, hsplit⟩ := hpart.leaves_split
  rw [leaves_parse] at hsplit
  have hcontiguous := scan_contiguous source
  rw [hsplit] at hcontiguous
  have hmiddle := hcontiguous.front.tail
  refine ⟨charsOf before, charsOf part.leaves, charsOf after, ?_, ?_⟩
  · rw [← scan_chars, hsplit, charsOf_append, charsOf_append]
  · simp only [Tree.range?, Option.bind_eq_bind, Option.bind_eq_some_iff] at hrange
    obtain ⟨first, hfirst, last, hlast, hrange⟩ := hrange
    obtain ⟨rest, hrest⟩ : ∃ rest, part.leaves = first :: rest :=
      ⟨part.leaves.tail, List.eq_cons_of_mem_head? hfirst⟩
    have hstart : first.start = byteLength (charsOf before) := by
      have h := hmiddle
      rw [hrest] at h
      rw [h.1, Nat.zero_add]
    have hstop := hmiddle.stop_last hlast
    rw [Nat.zero_add, ← byteLength_append] at hstop
    rw [← Option.some.inj hrange, hstart, hstop]

/-- **The table of lines has a span for every part of a tree**, and it is that of the walk. -/
theorem span?_part {source : String} {part : Tree} {range : Range}
    (hpart : part.Part (parse source).tree) (hrange : part.range? = some range) :
    ∃ index, Source.LineIndex.ofText? source.toList = some index ∧
      index.span? range = some (Source.span source.toList range) := by
  obtain ⟨front, middle, back, hsource, rfl⟩ := range?_boundaries hpart hrange
  exact Source.span?_boundaries hsource

end DomainModel
