/-
Questions to a tree and to its essence.

Whatever is asked of a construct looks either at its tokens, and then at those that are no
trivia, or at the nodes inside it.  Both stand in the essence in the same order, so every
question of `Tree.View` and every value of `Tree.Value` has one answer for both.  The two
kinds of nodes that quote are asked for their quotations alone.
-/
import DomainModel.Proofs.Tree.Essence
import Mathlib.Data.List.DropRight

namespace DomainModel

open Grammar (bareTokens)

namespace Tree

/-! ### Nodes -/

@[simp] theorem kind?_essence (t : Tree) : t.essence.kind? = t.kind? := by
  cases t <;> rfl

@[simp] theorem isNode_essence (kind : NodeKind) (t : Tree) :
    t.essence.isNode kind = t.isNode kind := by
  rw [isNode, isNode, kind?_essence]

theorem mem_nodes {t : Tree} {ts : List Tree} : t ∈ nodes ts ↔ t ∈ ts ∧ t.kind?.isSome :=
  List.mem_filter

theorem nodes_leaf (ts : List Token) : nodes (ts.map .leaf) = [] := by
  rw [nodes, List.filter_map, List.map_eq_nil_iff, List.filter_eq_nil_iff]
  exact fun _ _ => Bool.false_ne_true

theorem nodes_append (ts us : List Tree) : nodes (ts ++ us) = nodes ts ++ nodes us :=
  List.filter_append ..

theorem nodes_map_essence (ts : List Tree) :
    nodes ((nodes ts).map essence) = (nodes ts).map essence := by
  refine List.filter_eq_self.mpr fun t ht => ?_
  obtain ⟨u, hu, rfl⟩ := List.mem_map.mp ht
  rw [kind?_essence]
  exact (mem_nodes.mp hu).2

/-- The nodes among `us` are the essence of those among `ts`. -/
def Distilled (us ts : List Tree) : Prop := nodes us = (nodes ts).map essence

/-- The nodes inside the essence are the essence of the nodes inside. -/
theorem distilled_children (t : Tree) : Distilled t.essence.children t.children := by
  cases t with
  | leaf => rfl
  | node kind children =>
      rw [Distilled, essence, Tree.children, nodes_append, nodes_leaf, essenceOfAll_eq,
        nodes_map_essence]
      rfl

/-- What finds nothing in leaves finds the same among the nodes. -/
theorem filterMap_nodes {α : Type} {f : Tree → Option α} (hleaf : ∀ token, f (.leaf token) = none)
    (ts : List Tree) : ts.filterMap f = (nodes ts).filterMap f := by
  rw [nodes, List.filterMap_filter]
  refine List.filterMap_congr fun t _ => ?_
  cases t with
  | leaf token => exact hleaf token
  | node => rfl

theorem flatMap_nodes {α : Type} {f : Tree → List α} (hleaf : ∀ token, f (.leaf token) = [])
    (ts : List Tree) : ts.flatMap f = (nodes ts).flatMap f := by
  induction ts with
  | nil => rfl
  | cons t ts ih =>
      rw [List.flatMap_cons, ih, nodes, nodes, List.filter_cons]
      cases t with
      | leaf token => exact congrArg (· ++ _) (hleaf token)
      | node => rfl

theorem filter_nodes (kind : NodeKind) (ts : List Tree) :
    ts.filter (isNode kind) = (nodes ts).filter (isNode kind) := by
  rw [nodes, List.filter_filter]
  refine List.filter_congr fun t _ => ?_
  cases t with
  | leaf => rfl
  | node => exact (Bool.and_true _).symm

namespace Distilled

variable {ts us : List Tree}

/-- What finds nothing in leaves, and in the essence of each node what it finds in the node. -/
theorem filterMap {α : Type} {f : Tree → Option α} (h : Distilled us ts)
    (hleaf : ∀ token, f (.leaf token) = none) (hnode : ∀ t ∈ ts, f t.essence = f t) :
    us.filterMap f = ts.filterMap f := by
  rw [filterMap_nodes hleaf, h, List.filterMap_map, filterMap_nodes hleaf ts]
  exact List.filterMap_congr fun t ht => hnode t (mem_nodes.mp ht).1

/-- What lists nothing for leaves, and for the essence of each node what it lists for the node,
up to a map. -/
theorem flatMap {α β : Type} {f : Tree → List β} {f' : Tree → List α} {g : α → β}
    (h : Distilled us ts) (hleaf : ∀ token, f (.leaf token) = [])
    (hleaf' : ∀ token, f' (.leaf token) = []) (hnode : ∀ t ∈ ts, f t.essence = (f' t).map g) :
    us.flatMap f = (ts.flatMap f').map g := by
  rw [flatMap_nodes hleaf, h, List.flatMap_map, flatMap_nodes hleaf' ts, List.map_flatMap]
  exact List.flatMap_congr fun t ht => hnode t (mem_nodes.mp ht).1

/-- The nodes of one kind are distilled with the rest. -/
theorem filter (h : Distilled us ts) (kind : NodeKind) :
    us.filter (isNode kind) = (ts.filter (isNode kind)).map essence := by
  have hsame : isNode kind ∘ essence = isNode kind := funext fun u => isNode_essence kind u
  rw [filter_nodes, h, List.filter_map, hsame, ← filter_nodes]

theorem map_filter {α : Type} {f f' : Tree → α} {kind : NodeKind} (h : Distilled us ts)
    (hnode : ∀ t ∈ ts, t.isNode kind = true → f t.essence = f' t) :
    (us.filter (isNode kind)).map f = (ts.filter (isNode kind)).map f' := by
  rw [h.filter, List.map_map]
  exact List.map_congr_left fun t ht => hnode t (List.mem_filter.mp ht).1 (List.mem_filter.mp ht).2

theorem filterMap_filter {α : Type} {f : Tree → Option α} {kind : NodeKind} (h : Distilled us ts)
    (hnode : ∀ t ∈ ts, t.isNode kind = true → f t.essence = f t) :
    (us.filter (isNode kind)).filterMap f = (ts.filter (isNode kind)).filterMap f := by
  rw [h.filter, List.filterMap_map]
  exact List.filterMap_congr fun t ht =>
    hnode t (List.mem_filter.mp ht).1 (List.mem_filter.mp ht).2

end Distilled

@[simp] theorem childrenOf_essence (kind : NodeKind) (t : Tree) :
    t.essence.childrenOf kind = (t.childrenOf kind).map essence :=
  (distilled_children t).filter kind

@[simp] theorem child?_essence (kind : NodeKind) (t : Tree) :
    t.essence.child? kind = (t.child? kind).map essence := by
  rw [child?, child?, ← List.head?_filter, ← List.head?_filter, (distilled_children t).filter,
    List.head?_map]

theorem isNode_of_child? {t u : Tree} {kind : NodeKind} (h : t.child? kind = some u) :
    u.isNode kind = true :=
  List.find?_some h

/-- What is asked of a part that may be missing. -/
theorem map_map_essence {α : Type} {f : Tree → α} {part : Option Tree}
    (h : ∀ u, part = some u → f u.essence = f u) : (part.map essence).map f = part.map f := by
  rw [Option.map_map]
  exact Option.map_congr h

theorem bind_map_essence {α : Type} {f : Tree → Option α} {part : Option Tree}
    (h : ∀ u, part = some u → f u.essence = f u) : (part.map essence).bind f = part.bind f := by
  rw [Option.bind_map]
  exact Option.bind_congr h

theorem bind_child?_essence (part : Option Tree) (kind : NodeKind) :
    (part.map essence).bind (·.child? kind) = (part.bind (·.child? kind)).map essence := by
  cases part with
  | none => rfl
  | some u => exact child?_essence kind u

theorem isNode_of_bind_child? {part : Option Tree} {u : Tree} {kind : NodeKind}
    (h : part.bind (·.child? kind) = some u) : u.isNode kind = true := by
  obtain ⟨t, -, hu⟩ := Option.bind_eq_some_iff.mp h
  exact isNode_of_child? hu

/-! ### Tokens -/

/-- A node that takes over text as it is written. -/
def quotes (t : Tree) : Bool := t.kind?.any NodeKind.quotes

theorem quotes_of_isNode {t : Tree} {kind : NodeKind} (h : t.isNode kind = true)
    (hkind : kind.quotes = false) : t.quotes = false := by
  rw [quotes, beq_iff_eq.mp h]
  exact hkind

theorem quotes_of_child? {t u : Tree} {kind : NodeKind} (h : t.child? kind = some u)
    (hkind : kind.quotes = false) : u.quotes = false :=
  quotes_of_isNode (isNode_of_child? h) hkind

theorem tokens_leaf (ts : List Token) : tokens (ts.map .leaf) = ts := by
  rw [tokens, List.filterMap_map]
  exact List.filterMap_some

theorem tokens_essenceOfAll (ts : List Tree) : tokens (essenceOfAll ts) = [] := by
  rw [essenceOfAll_eq, tokens, List.filterMap_eq_nil_iff]
  intro t ht
  obtain ⟨u, hu, rfl⟩ := List.mem_map.mp ht
  cases u with
  | leaf => exact nomatch (List.mem_filter.mp hu).2
  | node => rfl

theorem childTokens_node (kind : NodeKind) (children : List Tree) :
    (Tree.node kind children).essence.childTokens = gist (.node kind children) kind := by
  show tokens (List.map .leaf _ ++ essenceOfAll children) = _
  rw [tokens, List.filterMap_append, ← tokens, ← tokens, tokens_leaf, tokens_essenceOfAll,
    List.append_nil]

/-- The tokens of a node that does not quote, trivia left out. -/
theorem childTokens_essence {t : Tree} (h : t.quotes = false) :
    t.essence.childTokens = bareTokens t.childTokens := by
  cases t with
  | leaf => rfl
  | node kind children =>
      rw [childTokens_node]
      cases kind <;> first
        | rfl
        | exact Bool.noConfusion h

theorem childToken?_essence {t : Tree} (h : t.quotes = false) {k : TokenKind}
    (hk : k.isTrivia = false) : t.essence.childToken? k = (t.childToken? k).map Token.bare := by
  rw [childToken?, childTokens_essence h, childToken?_bare hk]

theorem word?_essence {t : Tree} (h : t.quotes = false) : t.essence.word? = t.word? := by
  rw [word?, word?, childTokens_essence h, find?_bareTokens (fun _ => rfl) (by simp),
    Option.map_map]
  rfl

theorem hasBrackets_essence {t : Tree} (h : t.quotes = false) :
    t.essence.hasBrackets = t.hasBrackets := by
  rw [hasBrackets, hasBrackets, childToken?_essence h rfl, Option.isSome_map]

theorem hasQuestion_essence {t : Tree} (h : t.quotes = false) :
    t.essence.hasQuestion = t.hasQuestion := by
  rw [hasQuestion, hasQuestion, childToken?_essence h rfl, Option.isSome_map]

theorem docOf_bare (token : Option Token) : docOf (token.map Token.bare) = docOf token := by
  cases token <;> rfl

theorem docOf_javadoc?_essence {t : Tree} (h : t.quotes = false) :
    docOf t.essence.javadoc? = docOf t.javadoc? := by
  rw [javadoc?, childToken?_essence h rfl, docOf_bare, javadoc?]

theorem suffixJavadoc?_essence (t : Tree) :
    t.essence.suffixJavadoc? = t.suffixJavadoc?.map Token.bare := by
  rw [suffixJavadoc?, suffixJavadoc?, child?_essence, Option.bind_map, Option.map_bind]
  exact Option.bind_congr fun u hu => childToken?_essence (quotes_of_child? hu rfl) rfl

theorem docOf_anyJavadoc?_essence {t : Tree} (h : t.quotes = false) :
    docOf t.essence.anyJavadoc? = docOf t.anyJavadoc? := by
  have hboth : t.essence.anyJavadoc? = t.anyJavadoc?.map Token.bare := by
    rw [anyJavadoc?, anyJavadoc?, suffixJavadoc?_essence, javadoc?, childToken?_essence h rfl,
      ← javadoc?]
    cases t.javadoc? <;> rfl
  rw [hboth, docOf_bare]

theorem childWord?_essence (t : Tree) {kind : NodeKind} (hkind : kind.quotes = false) :
    t.essence.childWord? kind = t.childWord? kind := by
  rw [childWord?, childWord?, child?_essence]
  exact bind_map_essence fun u hu => word?_essence (quotes_of_child? hu hkind)

@[simp] theorem name?_essence (t : Tree) : t.essence.name? = t.name? := childWord?_essence t rfl

@[simp] theorem nameOrEmpty_essence (t : Tree) : t.essence.nameOrEmpty = t.nameOrEmpty := by
  rw [nameOrEmpty, nameOrEmpty, name?_essence]

/-! ### Quotations -/

/-- A text that was trimmed stays as it is. -/
theorem trim_trim (cs : List Char) : Text.trim (Text.trim cs) = Text.trim cs := by
  have hfront : Text.trimStart (Text.trimStart cs) = Text.trimStart cs :=
    List.dropWhile_idempotent Text.isBlank cs
  have hprefix : Text.trim cs <+: Text.trimStart cs := List.rdropWhile_prefix Text.isBlank _
  have hstart : Text.trimStart (Text.trim cs) = Text.trim cs := by
    refine List.dropWhile_eq_self_iff.mpr fun hlength => ?_
    rw [List.IsPrefix.getElem hprefix hlength]
    exact List.dropWhile_eq_self_iff.mp hfront _
  rw [Text.trim, hstart]
  exact List.rdropWhile_idempotent Text.isBlank _

theorem onText_trim (s : String) : onText Text.trim (onText Text.trim s) = onText Text.trim s := by
  rw [onText, onText, String.toList_ofList, trim_trim]

theorem kind_of_childToken? {t : Tree} {k : TokenKind} {token : Token}
    (h : t.childToken? k = some token) : token.kind = k := by
  rw [childToken?] at h
  simpa using List.find?_some h

/-- The name of a check or of a type is no part of what is quoted. -/
theorem identifier?_essence {t : Tree} {kind : NodeKind} (h : t.isNode kind = true)
    (hkind : kind ≠ .initialValue) : t.essence.identifier? = t.identifier? := by
  cases t with
  | leaf => rfl
  | node kind' children =>
      obtain rfl := Option.some.inj (beq_iff_eq.mp h)
      by_cases hcheck : kind' = .validation
      · subst hcheck
        rw [identifier?, childToken?, childTokens_node, gist, List.find?_append, identifier?]
        cases hident : (Tree.node .validation children).childToken? .ident with
        | some token => simp [Token.bare, kind_of_childToken? hident]
        | none => cases (Tree.node .validation children).argument? <;> rfl
      · have hquotes : kind'.quotes = false := by
          cases kind' <;> first
            | rfl
            | exact absurd rfl hcheck
            | exact absurd rfl hkind
        rw [identifier?, identifier?, childToken?_essence (quotes_of_isNode h hquotes) rfl]
        cases (Tree.node kind' children).childToken? .ident <;> rfl

/-- The argument of a check is quoted as it is. -/
theorem argument?_essence {t : Tree} (h : t.isNode .validation = true) :
    t.essence.argument? = t.argument? := by
  cases t with
  | leaf => exact Bool.noConfusion h
  | node kind children =>
      obtain rfl := Option.some.inj (beq_iff_eq.mp h)
      rw [argument?, childTokens_node, gist]
      have hname : ∀ rest, tokensBehind .lParen
          ((((Tree.node .validation children).childToken? .ident).map Token.bare).toList ++ rest) =
          tokensBehind .lParen rest := by
        intro rest
        cases hident : (Tree.node .validation children).childToken? .ident with
        | some token => simp [tokensBehind, Token.bare, kind_of_childToken? hident]
        | none => rfl
      rw [hname]
      cases hargument : (Tree.node .validation children).argument? with
      | none => rfl
      | some text =>
          obtain ⟨inside, -, rfl⟩ := Option.map_eq_some_iff.mp hargument
          -- The quotation is the only token between the parentheses, and it is trimmed already.
          simp [tokensBehind, trim_trim]

theorem text_single (kind : NodeKind) (token : Token) :
    (Tree.node kind [.leaf token]).text = token.text := by
  simp [text, leaves, leavesOfAll, String.join]

/-- An initial value that is no literal is quoted as it is. -/
theorem text_essence {t : Tree} (h : t.isNode .initialValue = true) (hliteral : t.literal? = none)
    (hnodes : nodes t.children = []) : t.essence.text = onText Text.trim t.text := by
  cases t with
  | leaf => exact Bool.noConfusion h
  | node kind children =>
      obtain rfl := Option.some.inj (beq_iff_eq.mp h)
      rw [essence, gist, written?, hliteral, essenceOfAll_eq, show nodes children = [] from hnodes]
      exact text_single .initialValue ⟨.string, _, 0⟩

/-! ### Values -/

theorem literalToken?_essence {t : Tree} (h : t.quotes = false) :
    t.essence.literalToken? = t.literalToken?.map Token.bare := by
  rw [literalToken?, childTokens_essence h]
  refine find?_bareTokens (fun _ => rfl) (fun t ht => ?_) _
  rw [Token.isTrivia]
  revert ht
  cases t.kind <;> first
    | exact fun _ => rfl
    | exact Bool.noConfusion

theorem literalSource_essence {t : Tree} (h : t.quotes = false) :
    t.essence.literalSource = t.literalSource := by
  rw [literalSource, literalSource, literalToken?_essence h]
  cases t.literalToken? <;> rfl

theorem scalar_essence {t : Tree} (h : t.quotes = false) : t.essence.scalar = t.scalar := by
  have htoken := literalToken?_essence h
  rw [literalToken?, literalToken?] at htoken
  rw [scalar, scalarOf, ← childTokens, htoken, scalar, scalarOf, ← childTokens]
  cases t.childTokens.find? (·.kind.isLiteral) <;> rfl

theorem bareText_essence {t : Tree} (h : t.quotes = false) : t.essence.bareText = t.bareText := by
  have htoken := literalToken?_essence h
  rw [literalToken?, literalToken?] at htoken
  rw [bareText, bareTextOf, ← childTokens, htoken, bareText, bareTextOf, ← childTokens]
  cases t.childTokens.find? (·.kind.isLiteral) <;> rfl

@[simp] theorem literal?_essence (t : Tree) : t.essence.literal? = t.literal?.map essence :=
  child?_essence .literal t

theorem quotes_of_literal? {t u : Tree} (h : t.literal? = some u) : u.quotes = false :=
  quotes_of_child? h rfl

/-- The key and the value of a pair. -/
def pair? : Tree → Option (String × Value)
  | .node .pair children => keyed children
  | _ => none

theorem valuesIn_eq (ts : List Tree) : valuesIn ts = ts.filterMap value? := by
  induction ts with
  | nil => rfl
  | cons t ts ih =>
      rw [valuesIn, ih, List.filterMap_cons]
      cases value? t <;> rfl

theorem pairsIn_eq (ts : List Tree) : pairsIn ts = ts.filterMap pair? := by
  induction ts with
  | nil => rfl
  | cons t ts ih =>
      rw [List.filterMap_cons, ← ih]
      cases t with
      | leaf => rfl
      | node kind children =>
          cases kind <;> first
            | rfl
            | rw [pairsIn, pair?]
              cases keyed children <;> rfl

theorem pairedValue_nodes (ts : List Tree) : pairedValue (nodes ts) = pairedValue ts := by
  induction ts with
  | nil => rfl
  | cons t ts ih =>
      cases t with
      | leaf => exact ih
      | node => rfl

theorem keyed_nodes (ts : List Tree) : keyed (nodes ts) = keyed ts := by
  induction ts with
  | nil => rfl
  | cons t ts ih =>
      cases t with
      | leaf => exact ih
      | node kind children =>
          cases kind <;> first
            | rfl
            | exact congrArg (fun v => some (bareTextOf children, v)) (pairedValue_nodes ts)

theorem pairedValue_essence {ts : List Tree} (hnode : ∀ t ∈ ts, t.kind?.isSome)
    (hvalue : ∀ t ∈ ts, value? t.essence = value? t) :
    pairedValue (ts.map essence) = pairedValue ts := by
  cases ts with
  | nil => rfl
  | cons t ts =>
      have hfirst := hvalue t (List.mem_cons_self ..)
      cases t with
      | leaf => exact nomatch hnode _ (List.mem_cons_self ..)
      | node kind children => exact congrArg (·.getD (.bool true)) hfirst

theorem keyed_essence {ts : List Tree} (hnode : ∀ t ∈ ts, t.kind?.isSome)
    (hvalue : ∀ t ∈ ts, value? t.essence = value? t) : keyed (ts.map essence) = keyed ts := by
  cases ts with
  | nil => rfl
  | cons t ts =>
      have hpaired := pairedValue_essence (fun u hu => hnode u (List.mem_cons_of_mem _ hu))
        (fun u hu => hvalue u (List.mem_cons_of_mem _ hu))
      cases t with
      | leaf => exact nomatch hnode _ (List.mem_cons_self ..)
      | node kind children =>
          by_cases hkind : kind = .literal
          · subst hkind
            have htext := bareText_essence (t := .node .literal children) rfl
            rw [List.map_cons, essence, keyed, keyed, hpaired]
            exact congrArg (fun key => some (key, pairedValue ts)) htext
          · cases kind <;> first
              | rfl
              | exact absurd rfl hkind

/-- **A value is read off the essence.** -/
theorem read_essence (t : Tree) : value? t.essence = value? t ∧ pair? t.essence = pair? t := by
  induction t using Tree.induct with
  | leaf => exact ⟨rfl, rfl⟩
  | node kind children ih =>
      have hdistilled : Distilled (Tree.node kind children).essence.children children :=
        distilled_children _
      have hkeyed : keyed (Tree.node kind children).essence.children = keyed children := by
        rw [← keyed_nodes, hdistilled, keyed_essence (fun t ht => (mem_nodes.mp ht).2)
          (fun t ht => (ih t (mem_nodes.mp ht).1).1), keyed_nodes]
      have hvalues : valuesIn (Tree.node kind children).essence.children = valuesIn children := by
        rw [valuesIn_eq, valuesIn_eq]
        exact hdistilled.filterMap (fun _ => rfl) fun t ht => (ih t ht).1
      have hpairs : pairsIn (Tree.node kind children).essence.children = pairsIn children := by
        rw [pairsIn_eq, pairsIn_eq]
        exact hdistilled.filterMap (fun _ => rfl) fun t ht => (ih t ht).2
      cases kind
      case literal => exact ⟨congrArg some (scalar_essence (t := .node .literal children) rfl), rfl⟩
      case object =>
        exact ⟨congrArg (fun pairs => some (Value.map (Dict.ofList pairs))) hpairs, rfl⟩
      case array => exact ⟨congrArg (fun values => some (Value.list values)) hvalues, rfl⟩
      case pair => exact ⟨rfl, hkeyed⟩
      all_goals exact ⟨rfl, rfl⟩

theorem pairsIn_essence (t : Tree) : pairsIn t.essence.children = pairsIn t.children := by
  rw [pairsIn_eq, pairsIn_eq]
  exact (distilled_children t).filterMap (fun _ => rfl) fun u _ => (read_essence u).2

theorem findSome?_essence (t : Tree) :
    t.essence.children.findSome? value? = t.children.findSome? value? := by
  rw [← List.head?_filterMap, ← List.head?_filterMap]
  refine congrArg List.head? ((distilled_children t).filterMap (fun _ => rfl) fun u _ => ?_)
  exact (read_essence u).1

theorem complexValue_essence (t : Tree) : t.essence.complexValue = t.complexValue := by
  have hscalars (array : Tree) : (array.essence.childrenOf .literal).map scalar =
      (array.childrenOf .literal).map scalar :=
    (distilled_children array).map_filter fun _ _ hkind =>
      scalar_essence (quotes_of_isNode hkind rfl)
  rw [complexValue, complexValue, findSome?_essence, child?_essence, child?_essence]
  cases t.children.findSome? value? with
  | some => rfl
  | none =>
      cases t.child? .arrayPlain with
      | some array => exact congrArg Value.list (hscalars array)
      | none =>
          cases t.child? .pairs with
          | some pairs =>
              exact congrArg (fun ps => Value.map (Dict.ofList ps)) (pairsIn_essence pairs)
          | none => rfl

theorem argument_map_complexValue (t : Tree) :
    t.essence.argumentNode?.map complexValue = t.argumentNode?.map complexValue := by
  rw [argumentNode?, argumentNode?, child?_essence]
  exact map_map_essence fun u _ => complexValue_essence u

@[simp] theorem annotationValue_essence (t : Tree) :
    t.essence.annotationValue = t.annotationValue := by
  rw [annotationValue, annotationValue, argument_map_complexValue]

@[simp] theorem settingValue_essence (t : Tree) : t.essence.settingValue = t.settingValue := by
  rw [settingValue, settingValue, argument_map_complexValue]

end Tree

end DomainModel
