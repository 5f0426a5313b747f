/-
Trees that quote single tokens.

What a tree takes over as it is written holds the white space between its tokens too.  Where
it is one token, there is nothing between them, and white space around it is dropped.  So a
terse tree with nothing but blanks for trivia quotes the same as it does without them
(`quotations_bare`).
-/
import DomainModel.Proofs.Tree.Questions

namespace DomainModel

open Grammar (bareTokens)

/-! ### Blanks around a token -/

theorem trim_append_blank {cs back : List Char} (hback : ∀ c ∈ back, Text.isBlank c = true) :
    Text.trim (cs ++ back) = Text.trim cs := by
  have hend (ds : List Char) : Text.trimEnd (ds ++ back) = Text.trimEnd ds := by
    rw [Text.trimEnd, Text.trimStart, List.reverse_append,
      List.dropWhile_append_of_pos fun c hc => hback c (List.mem_reverse.mp hc)]
    rfl
  have hnone : back.dropWhile Text.isBlank = [] := by
    simpa using hback
  rw [Text.trim, Text.trim, Text.trimStart, Text.trimStart, List.dropWhile_append]
  split
  · next hempty =>
      rw [hnone, List.isEmpty_iff.mp hempty]
  · exact hend _

theorem trim_blank_append {front cs : List Char} (hfront : ∀ c ∈ front, Text.isBlank c = true) :
    Text.trim (front ++ cs) = Text.trim cs := by
  rw [Text.trim, Text.trim, Text.trimStart, List.dropWhile_append_of_pos hfront, Text.trimStart]

/-- Trivia that is a single blank. -/
def Blank (ts : List Token) : Prop := ∀ t ∈ ts, t.isTrivia = true → t.text = " "

theorem trim_bareTokens {ts : List Token} (hblank : Blank ts) (hsingle : (bareTokens ts).length ≤ 1) :
    Text.trim (charsOf (bareTokens ts)) = Text.trim (charsOf ts) := by
  have hnone {us : List Token} (hus : Blank us) (hproper : bareTokens us = []) :
      ∀ c ∈ charsOf us, Text.isBlank c = true := by
    intro c hc
    obtain ⟨t, ht, hc⟩ := List.mem_flatMap.mp hc
    have htrivia : t.isTrivia = true := by
      by_contra hfalse
      have hmem : t.bare ∈ bareTokens us :=
        List.mem_map_of_mem (List.mem_filter.mpr ⟨ht, by simpa using hfalse⟩)
      rw [hproper] at hmem
      cases hmem
    rw [hus t ht htrivia] at hc
    obtain rfl : c = ' ' := by simpa using hc
    rfl
  induction ts with
  | nil => rfl
  | cons t ts ih =>
      obtain ⟨ht, hts⟩ := List.forall_mem_cons.mp hblank
      cases htrivia : t.isTrivia with
      | true =>
          rw [Grammar.bareTokens_cons_trivia htrivia] at hsingle ⊢
          have hspace : ∀ c ∈ " ".toList, Text.isBlank c = true := by
            intro c hc
            obtain rfl : c = ' ' := by simpa using hc
            rfl
          rw [ih hts hsingle, charsOf_cons, ht htrivia, trim_blank_append hspace]
      | false =>
          rw [Grammar.bareTokens_cons_proper htrivia] at hsingle ⊢
          have hrest : bareTokens ts = [] :=
            List.length_eq_zero_iff.mp (Nat.le_zero.mp (Nat.succ_le_succ_iff.mp hsingle))
          rw [hrest, charsOf_cons, charsOf_cons, charsOf_nil, List.append_nil,
            trim_append_blank (hnone hts hrest)]
          rfl

namespace Tree

/-! ### What is quoted -/

/-- The tokens that a node takes over as they are written. -/
def quoted (t : Tree) : NodeKind → List Token
  | .validation => ((tokensBehind .lParen t.childTokens).getD []).takeWhile (·.kind != .rParen)
  | .initialValue => t.leaves
  | _ => []

/-- Wherever the tree takes something over as it is written, there is one token at most. -/
inductive Terse : Tree → Prop
  | leaf (token : Token) : Terse (.leaf token)
  | node {kind : NodeKind} {children : List Tree}
      (single : ((Tree.node kind children).quoted kind).length ≤ 1)
      (inside : ∀ t ∈ children, Terse t) : Terse (.node kind children)

theorem leavesOfAll_bareAll {ts : List Tree}
    (h : ∀ t ∈ ts, t.isTrivia = false → t.bare.leaves = bareTokens t.leaves) :
    leavesOfAll (bareAll ts) = bareTokens (leavesOfAll ts) := by
  induction ts with
  | nil => rfl
  | cons t ts ih =>
      obtain ⟨ht, hts⟩ := List.forall_mem_cons.mp h
      rw [bareAll, leavesOfAll, Grammar.bareTokens_append]
      split
      · next htrivia =>
          cases t with
          | leaf token =>
              have hnone : bareTokens [token] = [] := Grammar.bareTokens_cons_trivia htrivia []
              rw [leaves, hnone, ih hts, List.nil_append]
          | node => exact Bool.noConfusion htrivia
      · next htrivia => rw [leavesOfAll, ht (by simpa using htrivia), ih hts]

theorem leaves_bare (t : Tree) : t.isTrivia = false → t.bare.leaves = bareTokens t.leaves := by
  induction t using Tree.induct with
  | leaf token =>
      intro htrivia
      rw [bare, leaves, leaves, Grammar.bareTokens_cons_proper htrivia]
      rfl
  | node kind children ih => exact fun _ => by rw [bare, leaves, leaves, leavesOfAll_bareAll ih]

theorem tokensBehind_bareTokens {k : TokenKind} (hk : k.isTrivia = false) (ts : List Token) :
    tokensBehind k (bareTokens ts) = (tokensBehind k ts).map bareTokens := by
  induction ts with
  | nil => rfl
  | cons t ts ih =>
      by_cases hkind : t.kind = k
      · have htrivia : t.isTrivia = false := by rw [Token.isTrivia, hkind, hk]
        rw [Grammar.bareTokens_cons_proper htrivia]
        simp [tokensBehind, Token.bare, hkind]
      · have hcons (u : Token) (us : List Token) (hu : u.kind ≠ k) :
            tokensBehind k (u :: us) = tokensBehind k us := by
          simp [tokensBehind, hu]
        rw [hcons t ts hkind]
        cases htrivia : t.isTrivia with
        | true => rw [Grammar.bareTokens_cons_trivia htrivia, ih]
        | false => rw [Grammar.bareTokens_cons_proper htrivia, hcons t.bare _ hkind, ih]

theorem takeWhile_bareTokens {k : TokenKind} (hk : k.isTrivia = false) (ts : List Token) :
    (bareTokens ts).takeWhile (·.kind != k) = bareTokens (ts.takeWhile (·.kind != k)) := by
  induction ts with
  | nil => rfl
  | cons t ts ih =>
      cases htrivia : t.isTrivia with
      | true =>
          have hkind : t.kind ≠ k := by
            rintro rfl
            exact Bool.noConfusion (htrivia.symm.trans hk)
          rw [Grammar.bareTokens_cons_trivia htrivia, List.takeWhile_cons_of_pos (by simpa using hkind),
            Grammar.bareTokens_cons_trivia htrivia, ih]
      | false =>
          rw [Grammar.bareTokens_cons_proper htrivia, List.takeWhile_cons, List.takeWhile_cons, ih]
          have hbare : t.bare.kind = t.kind := rfl
          rw [hbare]
          split
          · rw [Grammar.bareTokens_cons_proper htrivia]
          · rfl

theorem childTokens_bare (t : Tree) (ht : t.kind?.isSome) :
    t.bare.childTokens = bareTokens t.childTokens := by
  cases t with
  | leaf => exact Bool.noConfusion ht
  | node kind children => exact tokens_bareAll children

theorem quoted_bare {t : Tree} (ht : t.kind?.isSome) (kind : NodeKind) :
    t.bare.quoted kind = bareTokens (t.quoted kind) := by
  cases kind
  case validation =>
    rw [quoted, quoted, childTokens_bare t ht, tokensBehind_bareTokens rfl]
    cases tokensBehind .lParen t.childTokens with
    | none => rfl
    | some inside => exact takeWhile_bareTokens rfl inside
  case initialValue =>
    refine leaves_bare t ?_
    cases t with
    | leaf => exact Bool.noConfusion ht
    | node => rfl
  all_goals rfl

theorem argument?_eq (t : Tree) : t.argument? = (tokensBehind .lParen t.childTokens).map fun inside =>
    String.ofList (Text.trim (charsOf (inside.takeWhile (·.kind != .rParen)))) := rfl

theorem find?_bareAll (kind : NodeKind) (ts : List Tree) :
    (bareAll ts).find? (isNode kind) = (ts.find? (isNode kind)).map bare := by
  induction ts with
  | nil => rfl
  | cons t ts ih =>
      cases t with
      | leaf token =>
          rw [bareAll]
          split
          · exact ih
          · exact ih
      | node kind' children =>
          have hbare : bareAll (.node kind' children :: ts) = bare (.node kind' children) :: bareAll ts :=
            rfl
          have hnode : isNode kind (bare (.node kind' children)) = isNode kind (.node kind' children) :=
            rfl
          rw [hbare, List.find?_cons, List.find?_cons, hnode]
          split
          · rfl
          · exact ih

theorem literal?_bare {t : Tree} (ht : t.kind?.isSome) : t.bare.literal? = t.literal?.map bare := by
  cases t with
  | leaf => exact Bool.noConfusion ht
  | node kind children => exact find?_bareAll .literal children

/-- A quotation of one token is the same without trivia. -/
theorem quotation_bare {t : Tree} (ht : t.kind?.isSome) {kind : NodeKind}
    (hsingle : (t.bare.quoted kind).length ≤ 1) (hblank : Blank (t.quoted kind)) :
    t.bare.quotation kind = t.quotation kind := by
  rw [quoted_bare ht] at hsingle
  have htrim := trim_bareTokens hblank hsingle
  cases kind
  case validation =>
    rw [quotation, quotation, argument?_eq, argument?_eq, childTokens_bare t ht,
      tokensBehind_bareTokens rfl]
    rw [quoted] at htrim
    cases hinside : tokensBehind .lParen t.childTokens with
    | none => rfl
    | some inside =>
        rw [hinside, Option.getD_some] at htrim
        rw [Option.map_some, Option.map_some, Option.map_some, takeWhile_bareTokens rfl, htrim]
  case initialValue =>
    rw [quotation, quotation, written?, written?, literal?_bare ht]
    cases t.literal? with
    | some literal => rfl
    | none =>
        have hleaves : t.bare.leaves = bareTokens t.leaves := quoted_bare ht .initialValue
        rw [quoted] at htrim
        rw [Option.map_none, onText, onText, text_toList, text_toList, hleaves, htrim]
  all_goals rfl

theorem leaves_of_mem {t u : Tree} (h : u ∈ t.children) {token : Token} (ht : token ∈ u.leaves) :
    token ∈ t.leaves := by
  cases t with
  | leaf => exact nomatch h
  | node kind children =>
      have hpart : u.Part (.node kind children) := .inside h .whole
      obtain ⟨before, after, hsplit⟩ := hpart.leaves_split
      rw [hsplit]
      exact List.mem_append_left _ (List.mem_append_right _ ht)

theorem quoted_leaves {t : Tree} {kind : NodeKind} {token : Token} (h : token ∈ t.quoted kind) :
    token ∈ t.leaves := by
  cases kind
  case validation =>
    rw [quoted] at h
    have hbehind : token ∈ (tokensBehind .lParen t.childTokens).getD [] :=
      (List.takeWhile_prefix _).subset h
    have hchild : token ∈ t.childTokens := by
      rw [tokensBehind] at hbehind
      split at hbehind
      · cases hbehind
      · next hdrop =>
          exact (List.dropWhile_suffix _).subset (hdrop ▸ List.mem_cons_of_mem _ hbehind)
    obtain ⟨u, hu, htoken⟩ := List.mem_filterMap.mp hchild
    cases u with
    | leaf token' =>
        obtain rfl := Option.some.inj htoken
        exact leaves_of_mem hu (List.mem_singleton_self _)
    | node => cases htoken
  case initialValue => exact h
  all_goals cases h

/-- **A terse tree quotes the same without trivia**, if all its trivia are blanks. -/
theorem quotations_bare (t : Tree) : t.bare.Terse → Blank t.leaves →
    t.bare.quotations = t.quotations := by
  induction t using Tree.induct with
  | leaf => exact fun _ _ => rfl
  | node kind children ih =>
      intro hterse hblank
      rw [bare] at hterse
      cases hterse with
      | node hsingle hinside =>
      have hown : (Tree.node kind children).bare.quotation kind =
          (Tree.node kind children).quotation kind :=
        quotation_bare rfl hsingle fun token htoken => hblank token (quoted_leaves htoken)
      have hparts : ∀ t ∈ nodes children, t.bare.quotations = t.quotations := by
        intro t ht
        have hmem : t ∈ children := (List.mem_filter.mp ht).1
        have hbare : t.bare ∈ nodes (bareAll children) := by
          rw [nodes_bareAll]
          exact List.mem_map_of_mem ht
        exact ih t hmem (hinside _ (List.mem_filter.mp hbare).1) fun token htoken =>
          hblank token (leaves_of_mem hmem htoken)
      rw [bare, quotations, quotations, quotationsOfAll_eq, quotationsOfAll_eq, nodes_bareAll,
        List.flatMap_map, List.flatMap_congr hparts, ← hown, bare]

end Tree

end DomainModel
