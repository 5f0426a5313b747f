/-
A written value is read as its tree, and its tree stands for the value.

`Value.tree` is the tree of a written value, built as the value is.  Which of literal, object
and array begins is seen from the first token, in which a written value is never mistaken
(`Writable.opens`).  As the argument of an option a value may be written in other ways,
listed by `Value.Argument`; all of them stand for the value (`Argument.complexValue`).
-/
import DomainModel.Proofs.Grammar.Accepts
import DomainModel.Proofs.Value.Dict
import DomainModel.Proofs.Value.Notation
import DomainModel.Tree.Value

namespace DomainModel

open Grammar
open Lexer (mark)

namespace Value

variable (style : KeyStyle)

/-- A literal that is one token. -/
def literalTree (t : Token) : Tree := .node .literal [.leaf t]

mutual

/-- The tree of a written value. -/
def tree : Value → Tree
  | .list items => .node .array (.leaf (mark .lBracket) :: (itemTrees items ++
      [.leaf (mark .rBracket)]))
  | .map entries => .node .object (.leaf (mark .lBrace) :: (pairTrees entries ++
      [.leaf (mark .rBrace)]))
  | v => literalTree (scalarToken v)

def itemTrees : List Value → List Tree
  | [] => []
  | [v] => [tree v]
  | v :: w :: vs => tree v :: .leaf (mark .comma) :: itemTrees (w :: vs)

def pairTrees : List (String × Value) → List Tree
  | [] => []
  | [(key, v)] => [.node .pair [literalTree (keyToken style key), .leaf (mark .colon), tree v]]
  | (key, v) :: e :: es =>
    .node .pair [literalTree (keyToken style key), .leaf (mark .colon), tree v] ::
      .leaf (mark .comma) :: pairTrees (e :: es)

end

variable {style} {v : Value} {rest : List Token}

theorem Scalar.tree (h : v.Scalar) : v.tree style = literalTree v.scalarToken := by
  cases h <;> simp only [Value.tree]

/-! ### Reading -/

/-- A written value is read as its tree, whatever follows. -/
def Readable (style : KeyStyle) (v : Value) : Prop :=
  ∀ rest, Accepts (.call .value) (tokens style v ++ rest) [tree style v] rest

/-- The kinds of tokens with which a value begins. -/
def openers : List TokenKind := [.ident, .string, .integer, .decimal, .lBrace, .lBracket]

/-- **A written value begins with a token that begins values.** -/
theorem Writable.opens (h : v.Writable) (style : KeyStyle) :
    ∃ t ts, v.tokens style = t :: ts ∧ t.kind ∈ openers ∧ t.isTrivia = false := by
  cases h with
  | scalar h =>
      have hkind : v.scalarToken.kind ∈ [TokenKind.ident, .string, .integer, .decimal] ++
          [.lBrace, .lBracket] := List.mem_append_left _ h.token.2.1
      exact ⟨_, [], h.tokens, hkind, h.proper⟩
  | list | map => exact ⟨_, _, by rw [tokens], by decide, rfl⟩

theorem accepts_literal {t : Token} (ht : t.isTrivia = false)
    (hkind : t.kind ∈ [TokenKind.ident, .string, .integer, .decimal]) :
    Accepts literal (t :: rest) [literalTree t] rest := by
  refine Reads.yes ?_ (Accepts.single ht)
  simpa [Test.simple, Test.holds, ht] using hkind

theorem Scalar.readable (h : v.Scalar) : Readable style v := by
  intro rest
  have hkind := h.token.2.1
  have hnone : ∀ k, k ∉ [TokenKind.ident, .string, .integer, .decimal] →
      (Test.next k).holds (v.tokens style ++ rest) = false := by
    intro k hk
    rw [h.tokens, List.singleton_append, holds_next h.proper, beq_eq_false_iff_ne]
    exact fun heq => hk (heq ▸ hkind)
  refine Reads.call (Reads.no (hnone .lBrace (by decide)) (Reads.no (hnone .lBracket (by decide)) ?_))
  rw [h.tokens, h.tree]
  exact accepts_literal h.proper hkind

/-- What stands between the brackets of an array. -/
def itemRule : Rule :=
  .ifThen (.either .simple (.kind 0 [.lBrace, .lBracket])) (.call .value ++ .accept .comma)
    (.junk .value)

theorem accepts_items {items : List Value} (h : ∀ v ∈ items, v.Writable ∧ Readable style v) :
    Accepts (.items .rBracket itemRule) (itemTokens style items ++ mark .rBracket :: rest)
      (itemTrees style items) (mark .rBracket :: rest) := by
  -- An item is read where one begins, and there the array does not end.
  have hitem : ∀ v : Value, v.Writable → ∀ ts,
      Test.holds (v.tokens style ++ ts) (.notYet .rBracket) = true ∧
        Test.holds (v.tokens style ++ ts)
          (.either .simple (.kind 0 [.lBrace, .lBracket])) = true := by
    intro v hv ts
    obtain ⟨t, us, htokens, hkind, ht⟩ := hv.opens style
    have hclose : t.kind ≠ .rBracket := fun heq => absurd (heq ▸ hkind) (by decide)
    rw [htokens]
    simp only [Test.holds, Test.notYet, Test.next, Test.simple, List.cons_append, ahead?_zero ht,
      Option.any_some, Option.isNone_some, List.contains_cons]
    simp only [openers, List.mem_cons, List.not_mem_nil, or_false] at hkind
    simp [hclose]
    tauto
  induction items with
  | nil => exact Accepts.done rfl
  | cons v vs ih =>
      obtain ⟨⟨hv, hread⟩, hvs⟩ := List.forall_mem_cons.mp h
      cases vs with
      | nil =>
          rw [itemTokens, itemTrees]
          exact Accepts.again (hitem v hv _).1
            (Reads.yes (hitem v hv _).2 (Accepts.seq (hread _) (Accepts.accept_none rfl)))
            (Accepts.done rfl)
      | cons w ws =>
          rw [itemTokens, itemTrees, List.append_assoc, List.cons_append]
          exact Accepts.again (hitem v hv _).1
            (Reads.yes (hitem v hv _).2 (Accepts.seq (hread _) (Accepts.accept_mark .comma rfl)))
            (ih hvs)

/-- The tree of a pair. -/
def pairTree (style : KeyStyle) (key : String) (v : Value) : Tree :=
  .node .pair [literalTree (keyToken style key), .leaf (mark .colon), tree style v]

theorem accepts_pair (key : String) (h : Readable style v) :
    Accepts pair (keyToken style key :: mark .colon :: (tokens style v ++ rest))
      [pairTree style key v] rest := by
  have hproper := keyToken_proper style key
  have hkind : (keyToken style key).kind ∈ [TokenKind.ident, .string, .integer, .decimal] :=
    List.mem_append_left [TokenKind.integer, .decimal] (keyToken_token style key).2
  exact Accepts.node hproper (Accepts.seq (Accepts.seq (accepts_literal hproper hkind)
    (Accepts.expect_mark .colon rfl)) (h rest))

theorem holds_pairAhead (style : KeyStyle) (key : String) (ts : List Token) :
    pairAhead.holds (keyToken style key :: mark .colon :: ts) = true := by
  have hkind := (keyToken_token style key).2
  have hcolon : (mark .colon).isTrivia = false := rfl
  simp only [List.mem_cons, List.not_mem_nil, or_false] at hkind
  simp [pairAhead, Test.second, Test.holds, keyToken_proper style key, hcolon, hkind]

theorem accepts_pairs {entries : List (String × Value)} (h : ∀ e ∈ entries, Readable style e.2) :
    Accepts (.whileDo pairAhead (pair ++ .accept .comma))
      (pairTokens style entries ++ mark .rBrace :: rest) (pairTrees style entries)
      (mark .rBrace :: rest) := by
  induction entries with
  | nil => exact Accepts.done rfl
  | cons e es ih =>
      obtain ⟨key, v⟩ := e
      obtain ⟨hread, hes⟩ := List.forall_mem_cons.mp h
      cases es with
      | nil =>
          rw [pairTokens, pairTrees]
          exact Accepts.again (holds_pairAhead style key _)
            (Accepts.seq (accepts_pair key hread) (Accepts.accept_none rfl)) (Accepts.done rfl)
      | cons f fs =>
          rw [pairTokens, pairTrees]
          simp only [List.cons_append, List.append_assoc]
          exact Accepts.again (holds_pairAhead style key _)
            (Accepts.seq (accepts_pair key hread) (Accepts.accept_mark .comma rfl)) (ih hes)

/-- **A written value is read as its tree.** -/
theorem Writable.readable (h : v.Writable) : Readable style v := by
  induction h with
  | scalar h => exact h.readable
  | list hitems ih =>
      intro rest
      rw [tokens, tree]
      simp only [List.cons_append, List.append_assoc, List.nil_append]
      refine Reads.call (Reads.no rfl (Reads.yes rfl (Accepts.node rfl ?_)))
      exact Accepts.seq (Accepts.seq (Accepts.take rfl)
        (accepts_items fun v hv => ⟨hitems v hv, ih v hv⟩)) (Accepts.expect_mark .rBracket rfl)
  | map _ _ ih =>
      intro rest
      rw [tokens, tree]
      simp only [List.cons_append, List.append_assoc, List.nil_append]
      refine Reads.call (Reads.yes rfl (Accepts.node rfl ?_))
      exact Accepts.seq (Accepts.seq (Accepts.take rfl) (accepts_pairs ih))
        (Accepts.expect_mark .rBrace rfl)

/-! ### Meaning -/

theorem value?_literalTree {t : Token} (hkind : t.kind.isLiteral = true)
    (h : Literal.parse t.kind t.text = .ok v) : (literalTree t).value? = some v := by
  rw [literalTree, Tree.value?, Tree.scalarOf]
  simp [Tree.token?, hkind, h]

theorem Scalar.value?_tree (h : v.Scalar) : (v.tree style).value? = some v := by
  obtain ⟨-, hkind, hparse⟩ := h.token
  rw [h.tree]
  refine value?_literalTree ?_ hparse
  generalize v.scalarToken.kind = k at hkind
  revert k
  decide

theorem bareTextOf_key (style : KeyStyle) (key : String) :
    Tree.bareTextOf [.leaf (keyToken style key)] = key := by
  have hleaf : ∀ t : Token, t.kind.isLiteral = true → Tree.bareTextOf [.leaf t] =
      if t.kind = .string then String.ofList (Literal.unquote t.text.toList) else t.text := by
    intro t ht
    simp [Tree.bareTextOf, Tree.token?, ht]
  rw [keyToken]
  split
  · exact hleaf _ rfl
  · rw [hleaf _ rfl]
    simp [scalarToken, Literal.unquote_quote]

theorem valuesIn_leaf (t : Token) (ts : List Tree) :
    Tree.valuesIn (.leaf t :: ts) = Tree.valuesIn ts := rfl

theorem pairsIn_leaf (t : Token) (ts : List Tree) : Tree.pairsIn (.leaf t :: ts) = Tree.pairsIn ts :=
  rfl

theorem valuesIn_items {items : List Value}
    (h : ∀ v ∈ items, (tree style v).value? = some v) (behind : List Tree) :
    Tree.valuesIn (itemTrees style items ++ behind) = items ++ Tree.valuesIn behind := by
  induction items with
  | nil => rfl
  | cons v vs ih =>
      obtain ⟨hv, hvs⟩ := List.forall_mem_cons.mp h
      cases vs with
      | nil => simp [itemTrees, Tree.valuesIn, hv]
      | cons w ws =>
          rw [itemTrees, List.cons_append, List.cons_append, Tree.valuesIn, hv, valuesIn_leaf,
            ih hvs]
          rfl

theorem pairsIn_pairs {entries : List (String × Value)}
    (h : ∀ e ∈ entries, (tree style e.2).value? = some e.2) (behind : List Tree) :
    Tree.pairsIn (pairTrees style entries ++ behind) = entries ++ Tree.pairsIn behind := by
  -- The value of a pair is that of the tree behind its colon.
  have hkeyed : ∀ key v, (tree style v).value? = some v → Tree.keyed
      [literalTree (keyToken style key), .leaf (mark .colon), tree style v] = some (key, v) := by
    intro key v hv
    have hpaired : Tree.pairedValue [.leaf (mark .colon), tree style v] = v := by
      cases htree : tree style v with
      | leaf t => exact nomatch (htree ▸ hv : (Tree.leaf t).value? = some v)
      | node kind children =>
          rw [Tree.pairedValue, Tree.pairedValue, ← htree, hv]
          rfl
    rw [literalTree, Tree.keyed, bareTextOf_key, hpaired]
  induction entries with
  | nil => rfl
  | cons e es ih =>
      obtain ⟨key, v⟩ := e
      obtain ⟨hv, hes⟩ := List.forall_mem_cons.mp h
      cases es with
      | nil => simp [pairTrees, Tree.pairsIn, hkeyed key v hv]
      | cons f fs =>
          rw [pairTrees, List.cons_append, List.cons_append, Tree.pairsIn, hkeyed key v hv,
            pairsIn_leaf, ih hes]
          rfl

/-- **The tree of a written value stands for that value.** -/
theorem Writable.value?_tree (h : v.Writable) : (tree style v).value? = some v := by
  induction h with
  | scalar h => exact h.value?_tree
  | list hitems ih =>
      rw [tree, Tree.value?, valuesIn_leaf, valuesIn_items ih]
      simp [Tree.valuesIn, Tree.value?]
  | map hkeys _ ih =>
      rw [tree, Tree.value?, pairsIn_leaf, pairsIn_pairs ih]
      simp [Tree.pairsIn, Dict.ofList_of_nodup hkeys]

/-! ### Arguments -/

/-- Literals behind a first one, each with a comma in front. -/
theorem accepts_plain {items : List Value} (h : ∀ v ∈ items, v.Scalar) (hitems : items ≠ []) :
    Accepts (.whileDo (.next .comma) (.take ++ literal))
      (mark .comma :: (itemTokens style items ++ mark .rParen :: rest))
      (.leaf (mark .comma) :: itemTrees style items) (mark .rParen :: rest) := by
  induction items with
  | nil => exact absurd rfl hitems
  | cons v vs ih =>
      obtain ⟨hv, hvs⟩ := List.forall_mem_cons.mp h
      have hliteral (ts : List Token) : Accepts (.take ++ literal)
          (mark .comma :: v.scalarToken :: ts) [.leaf (mark .comma), literalTree v.scalarToken] ts :=
        Accepts.seq (Accepts.take rfl) (accepts_literal hv.proper hv.token.2.1)
      cases vs with
      | nil =>
          rw [itemTokens, itemTrees, hv.tokens, hv.tree]
          exact Accepts.again rfl (hliteral _) (Accepts.done rfl)
      | cons w ws =>
          rw [itemTokens, itemTrees, hv.tokens, hv.tree]
          exact Accepts.again rfl (hliteral _) (ih hvs (List.cons_ne_nil _ _))

/-- Pairs behind a first one, each with a comma in front. -/
theorem accepts_morePairs {entries : List (String × Value)}
    (h : ∀ e ∈ entries, Readable style e.2) (hentries : entries ≠ []) :
    Accepts (.whileDo (.both (.next .comma) (.kind 2 [.colon])) (.take ++ pair))
      (mark .comma :: (pairTokens style entries ++ mark .rParen :: rest))
      (.leaf (mark .comma) :: pairTrees style entries) (mark .rParen :: rest) := by
  induction entries with
  | nil => exact absurd rfl hentries
  | cons e es ih =>
      obtain ⟨key, v⟩ := e
      obtain ⟨hread, hes⟩ := List.forall_mem_cons.mp h
      have hcomma (ts : List Token) : Test.holds (mark .comma :: keyToken style key :: mark .colon :: ts)
          (.both (.next .comma) (.kind 2 [.colon])) = true := by
        have hcomma : (mark .comma).isTrivia = false := rfl
        have hcolon : (mark .colon).isTrivia = false := rfl
        simp only [Test.holds, holds_next hcomma, ahead?_succ hcomma,
          ahead?_succ (keyToken_proper style key), ahead?_zero hcolon]
        rfl
      have hpair (ts : List Token) : Accepts (.take ++ pair)
          (mark .comma :: keyToken style key :: mark .colon :: (tokens style v ++ ts))
          [.leaf (mark .comma), pairTree style key v] ts :=
        Accepts.seq (Accepts.take rfl) (accepts_pair key hread)
      cases es with
      | nil =>
          rw [pairTokens, pairTrees]
          exact Accepts.again (hcomma _) (hpair _) (Accepts.done rfl)
      | cons f fs =>
          rw [pairTokens, pairTrees]
          simp only [List.cons_append, List.append_assoc]
          exact Accepts.again (hcomma _) (hpair _) (ih hes (List.cons_ne_nil _ _))

theorem scalars_items {items : List Value} (h : ∀ v ∈ items, v.Scalar) :
    ((itemTrees style items).filter (Tree.isNode .literal)).map Tree.scalar = items := by
  have hscalar : ∀ v : Value, v.Scalar →
      (v.tree style).isNode .literal = true ∧ (v.tree style).scalar = v := by
    intro v hv
    have hvalue : (v.tree style).value? = some v := hv.value?_tree
    rw [hv.tree] at hvalue ⊢
    exact ⟨rfl, Option.some.inj hvalue⟩
  induction items with
  | nil => rfl
  | cons v vs ih =>
      obtain ⟨hv, hvs⟩ := List.forall_mem_cons.mp h
      obtain ⟨hnode, hvalue⟩ := hscalar v hv
      cases vs with
      | nil => rw [itemTrees, List.filter_cons_of_pos hnode, List.map_cons, hvalue]; rfl
      | cons w ws =>
          rw [itemTrees, List.filter_cons_of_pos hnode, List.map_cons, hvalue,
            List.filter_cons_of_neg (by decide), ih hvs]

/-- In front of a closing parenthesis, a way to write a value is cut into these tokens and read
as a tree that stands for the value. -/
structure ArgumentRead (v : Value) (cs : List Char) (ts : List Token) (t : Tree) : Prop where
  undocumented : ∀ t ∈ ts, t.kind ≠ .javadoc
  cut : ∀ {rest us}, Lexer.Clear rest → Lexer.Cut rest us → Lexer.Cut (cs ++ rest) (ts ++ us)
  accepts : ∀ rest, Accepts Grammar.complexValue (ts ++ mark .rParen :: rest)
    [.node .complexValue [t]] (mark .rParen :: rest)
  value : (Tree.node .complexValue [t]).complexValue = v

/-- The tests that choose between pairs, a plain array and a value, on two tokens. -/
theorem holds_argument {t u : Token} (ht : t.isTrivia = false) (hu : u.isTrivia = false)
    (ts : List Token) :
    pairAhead.holds (t :: u :: ts) =
        ([TokenKind.ident, .string].contains t.kind && u.kind == .colon) ∧
      (Test.both .simple (.second .comma)).holds (t :: u :: ts) =
        ([TokenKind.ident, .string, .integer, .decimal].contains t.kind && u.kind == .comma) := by
  simp [pairAhead, Test.simple, Test.second, Test.holds, ht, hu, Bool.beq_eq_decide_eq]

theorem ArgumentRead.whole (h : v.Writable) :
    ArgumentRead v (written style v) (tokens style v) (tree style v) where
  undocumented := h.undocumented
  cut := h.cut
  accepts rest := by
    obtain ⟨t, ts, htokens, -, ht⟩ := h.opens style
    have hread := (h.readable : Readable style v) (mark .rParen :: rest)
    have htests : pairAhead.holds (tokens style v ++ mark .rParen :: rest) = false ∧
        (Test.both .simple (.second .comma)).holds
          (tokens style v ++ mark .rParen :: rest) = false := by
      cases h with
      | scalar h =>
          rw [h.tokens, List.singleton_append, (holds_argument h.proper rfl rest).1,
            (holds_argument h.proper rfl rest).2]
          exact ⟨Bool.and_false _, Bool.and_false _⟩
      | list | map =>
          rw [tokens]
          exact ⟨rfl, rfl⟩
    rw [htokens] at hread htests ⊢
    exact Accepts.node ht (Reads.no htests.1 (Reads.no htests.2 hread))
  value := by
    simp [Tree.complexValue, Tree.children, h.value?_tree]

theorem ArgumentRead.items {items : List Value} (hitems : 2 ≤ items.length)
    (h : ∀ v ∈ items, v.Scalar) : ArgumentRead (.list items) (writtenItems style items)
      (itemTokens style items) (.node .arrayPlain (itemTrees style items)) where
  undocumented := undocumented_items fun v hv => (Writable.scalar (h v hv)).undocumented
  cut := cut_items fun v hv => ⟨.scalar (h v hv), (Writable.scalar (h v hv)).cut⟩
  accepts rest := by
    obtain ⟨v, w, ws, rfl⟩ : ∃ v w ws, items = v :: w :: ws := by
      match items, hitems with
      | v :: w :: ws, _ => exact ⟨v, w, ws, rfl⟩
    obtain ⟨hv, hws⟩ := List.forall_mem_cons.mp h
    obtain ⟨hpair, hplain⟩ := holds_argument hv.proper (rfl : (mark .comma).isTrivia = false)
      (itemTokens style (w :: ws) ++ mark .rParen :: rest)
    have hkind := hv.token.2.1
    rw [itemTokens, itemTrees, hv.tokens, hv.tree]
    refine Accepts.node hv.proper (Reads.no ?_ (Reads.yes ?_ (Accepts.node hv.proper
      (Accepts.seq (accepts_literal hv.proper hkind)
        (accepts_plain hws (List.cons_ne_nil _ _))))))
    · exact hpair.trans (Bool.and_false _)
    · exact hplain.trans ((Bool.and_true _).trans (List.contains_iff_mem.mpr hkind))
  value := by
    have hscalars : ((itemTrees style items).filter (Tree.isNode .literal)).map Tree.scalar = items :=
      scalars_items h
    simp only [Tree.complexValue, Tree.children, List.findSome?_cons, Tree.value?]
    simpa [Tree.child?, Tree.children, Tree.isNode, Tree.kind?, Tree.childrenOf] using hscalars

theorem ArgumentRead.pairs {entries : List (String × Value)} (hentries : entries ≠ [])
    (hkeys : (Dict.keys entries).Nodup) (h : ∀ e ∈ entries, e.2.Writable) :
    ArgumentRead (.map entries) (writtenPairs style entries) (pairTokens style entries)
      (.node .pairs (pairTrees style entries)) where
  undocumented := undocumented_pairs fun e he => (h e he).undocumented
  cut := cut_pairs fun e he => ⟨h e he, (h e he).cut⟩
  accepts rest := by
    obtain ⟨⟨key, v⟩, es, rfl⟩ := List.exists_cons_of_ne_nil hentries
    obtain ⟨hv, hes⟩ := List.forall_mem_cons.mp h
    have hproper := keyToken_proper style key
    have hread : ∀ ts, Accepts pair (keyToken style key :: mark .colon :: (tokens style v ++ ts))
        [pairTree style key v] ts := fun ts => accepts_pair key hv.readable
    cases es with
    | nil =>
        exact Accepts.node hproper (Reads.yes (holds_pairAhead style key _)
          (Accepts.node hproper (Accepts.seq (hread _) (Accepts.done rfl))))
    | cons f fs =>
        rw [pairTokens, pairTrees]
        simp only [List.cons_append, List.append_assoc]
        exact Accepts.node hproper (Reads.yes (holds_pairAhead style key _)
          (Accepts.node hproper (Accepts.seq (hread _)
            (accepts_morePairs (fun e he => (hes e he).readable) (List.cons_ne_nil _ _)))))
  value := by
    have hvalues : ∀ e ∈ entries, (tree style e.2).value? = some e.2 :=
      fun e he => (h e he).value?_tree
    have hpairs := pairsIn_pairs hvalues []
    rw [List.append_nil] at hpairs
    simp [Tree.complexValue, Tree.children, Tree.value?, Tree.child?, Tree.isNode, Tree.kind?,
      hpairs, Tree.pairsIn, Dict.ofList_of_nodup hkeys]

/-- **Every way to write a value as an argument is read as a tree that stands for it.** -/
theorem Argument.read {cs : List Char} (h : v.Argument style cs) (hv : v.Writable) :
    ∃ ts t, ArgumentRead v cs ts t := by
  cases h with
  | whole => exact ⟨_, _, .whole hv⟩
  | items hitems h => exact ⟨_, _, .items hitems h⟩
  | pairs hentries =>
      cases hv with
      | scalar h => exact nomatch h
      | map hkeys h => exact ⟨_, _, .pairs hentries hkeys h⟩

end Value

end DomainModel
