/-
Which nodes stand in which.

The rules recover from every error, so a tree may lack any of its parts.  What it cannot
have is a part in the wrong place.  `holds` is the table of kinds that a node may have
among its children, `clashes` says which of them may not follow which, and `words` lists
the kinds that are one identifier and nothing else.  `Shaped` says of a tree that it keeps
to all three.

The table is checked against the grammar once, by `Rule.shapes`, which walks through a rule
with the kind of the node around it.  `Reads.shaped` carries the check to whatever the rule
reads, whether a construct was complete, cut short or set aside as junk.
-/
import DomainModel.Proofs.Grammar.Lossless
import Mathlib.Data.List.ProdSigma

namespace DomainModel

/-- The kinds of some trees, leaves left out. -/
def kindsOf (ts : List Tree) : List NodeKind := ts.filterMap Tree.kind?

theorem kindsOf_append (ts us : List Tree) : kindsOf (ts ++ us) = kindsOf ts ++ kindsOf us :=
  List.filterMap_append

theorem Tree.exists_node {t : Tree} {kind : NodeKind} (h : t.kind? = some kind) :
    ∃ children, t = .node kind children := by
  cases t with
  | leaf => exact nomatch h
  | node k children => exact ⟨children, congrArg (Tree.node · children) (Option.some.inj h)⟩

theorem kindsOf_leaf (ts : List Token) : kindsOf (ts.map .leaf) = [] := by
  rw [kindsOf, List.filterMap_map]
  exact List.filterMap_eq_nil_iff.mpr fun _ _ => rfl

namespace NodeKind

/-- The kinds of declarations with fields. -/
def declarations : List NodeKind := [.entity, .input, .output, .event]

/-- The kinds that may stand in a node, which itself stands in a node of kind `within`: only
junk depends on that, since at the top it may hold annotations without a declaration. -/
def holds (within : NodeKind) : NodeKind → List NodeKind
  | .sourceFile =>
    [.globalJavadoc, .legacyConstant, .importStatement, .config, .apiList, .pluginList, .policies,
      .relationshipGroup, .legacyService, .entity, .input, .output, .event, .enumeration,
      .service, .aggregate, .junk]
  | .legacyConstant | .policy | .pluginCliOption => [.name, .literal]
  | .importStatement | .pluginOptions | .initialValue | .arrayPlain => [.literal]
  | .config => [.pluginList, .configOption, .junk]
  | .configOption | .apiConfig | .pluginConfigOption => [.name, .complexValue]
  | .apiList => [.api, .junk]
  | .api => [.annotationNode, .apiType, .apiRole, .name, .apiConfig, .junk]
  | .pluginList => [.plugin, .junk]
  | .plugin =>
    [.pluginDisabled, .name, .pluginOptions, .pluginCliOption, .pluginConfigOption, .junk]
  | .policies => [.name, .policy, .junk]
  | .entity => [.annotationNode, .name, .tableName, .declBody]
  | .input | .output | .event => [.annotationNode, .name, .declBody]
  | .enumeration => [.annotationNode, .name, .enumBody]
  | .service => [.annotationNode, .name, .serviceAggregates, .serviceMethod, .junk]
  | .aggregate => [.annotationNode, .name, .aggregateRoot, .aggregateCommand, .junk]
  | .declBody => [.field, .junk]
  | .nestedField => [.field, .junk, .validation]
  | .field =>
    [.annotationNode, .name, .fieldType, .tableName, .initialValue, .validation, .suffixJavadoc,
      .nestedField]
  | .enumBody => [.enumValue, .junk]
  | .enumValue => [.name, .literal, .suffixJavadoc]
  | .relationshipGroup => [.name, .relationship, .junk]
  | .relationship => [.relationshipFrom, .relationshipTo]
  | .relationshipFrom | .relationshipTo => [.annotationNode, .name, .relationshipField]
  | .relationshipField => [.name, .relationshipDescription, .validation]
  | .relationshipDescription | .serviceAggregates => [.name]
  | .legacyService => [.serviceAggregates, .name]
  | .serviceMethod =>
    [.annotationNode, .name, .methodParams, .methodReturn, .withEvents, .suffixJavadoc]
  | .aggregateCommand => [.annotationNode, .name, .methodParams, .withEvents, .suffixJavadoc]
  | .methodParams => [.naturalId, .paramId, .methodParameter]
  | .withEvents => [.eventRef, .eventGroup]
  | .eventGroup => [.eventRef]
  | .annotationNode => [.complexValue]
  | .complexValue => [.pairs, .arrayPlain, .literal, .object, .array]
  | .pairs | .object => [.pair]
  | .pair => [.literal, .object, .array]
  | .array => [.literal, .object, .array, .junk]
  | .junk => if within = .sourceFile then [.annotationNode] else []
  | _ => []

/-- At the top a node may hold whatever it may hold elsewhere. -/
theorem holds_subset {within kind k : NodeKind} (h : k ∈ holds within kind) :
    k ∈ holds .sourceFile kind := by
  cases kind with
  | junk =>
      rw [holds] at h
      split at h
      · exact h
      · cases h
  | _ => exact h

/-- May `second` not stand behind `first` in a node of this kind?  A declaration has one
body, and a field has its annotations and its type in front of its block. -/
def clashes (kind first second : NodeKind) : Bool :=
  match kind with
  | .field => first == .nestedField && (second == .annotationNode || second == .fieldType)
  | .enumeration => first == .enumBody && second == .enumBody
  | kind => declarations.contains kind && first == .declBody && second == .declBody

/-- The kinds of nodes that are one identifier. -/
def words : List NodeKind :=
  [.name, .tableName, .apiType, .apiRole, .pluginDisabled, .aggregateRoot, .paramId,
    .methodParameter]

end NodeKind

/-- A tree that keeps to the table, in a node of kind `within`. -/
inductive Shaped : NodeKind → Tree → Prop
  | leaf {within t} : Shaped within (.leaf t)
  | node {within kind children}
      (hholds : ∀ k ∈ kindsOf children, k ∈ NodeKind.holds within kind)
      (hturn : (kindsOf children).Pairwise fun a b => kind.clashes a b = false)
      (hword : kind ∈ NodeKind.words → ∃ t, children = [.leaf t] ∧ t.kind = .ident)
      (hchildren : ∀ t ∈ children, Shaped kind t) : Shaped within (.node kind children)

namespace Grammar

/-! ### What a rule puts where -/

/-- The kinds of nodes as which a nonterminal is read. -/
def Nonterminal.yields : Nonterminal → List NodeKind
  | .field => [.field]
  | .value => [.literal, .object, .array]

/-- The kinds of nodes in which a nonterminal stands. -/
def Nonterminal.homes : Nonterminal → List NodeKind
  | .field => [.declBody, .nestedField]
  | .value => [.complexValue, .pair, .array]

/-- What is seen of an identifier. -/
def Sight.words : List Sight := [.joiner, .kind .ident]

namespace Rule

/-- The kinds of the nodes that a rule reads, those inside them left out. -/
def yields : Rule → List NodeKind
  | seq first second => yields first ++ yields second
  | ifThen _ yes no => yields yes ++ yields no
  | whileDo _ body => yields body
  | node kind _ => [kind]
  | headed lead keywords otherwise _ =>
    headKinds keywords otherwise ++ if otherwise.isNone then yields lead else []
  | call block => block.yields
  | _ => []

/-- Which kind may come behind which among the nodes that a rule reads. -/
def turns : Rule → List (NodeKind × NodeKind)
  | seq first second => turns first ++ turns second ++ (yields first).product (yields second)
  | ifThen _ yes no => turns yes ++ turns no
  | whileDo _ body => turns body ++ (yields body).product (yields body)
  | headed lead _ otherwise _ => if otherwise.isNone then turns lead else []
  | _ => []

def isTake : Rule → Bool
  | take => true
  | _ => false

/-- Does a node of this kind with this body keep to the table, read at one of the sights? -/
def shapesNode (within kind : NodeKind) (body : Rule) (seen : List Sight) : Bool :=
  (yields body).all (NodeKind.holds within kind).contains &&
    (turns body).all (fun p => !kind.clashes p.1 p.2) &&
    (!NodeKind.words.contains kind || isTake body && seen.all Sight.words.contains)

/-- Do the trees that a rule reads keep to the table, when it is read in a node of kind
`within` and at one of the sights? -/
def shapes : Rule → NodeKind → List Sight → Bool
  | seq first second, within, seen => shapes first within seen && shapes second within Sight.all
  | ifThen test yes no, within, seen =>
    shapes yes within (seen.filter (test.may true)) &&
      shapes no within (seen.filter (test.may false))
  | whileDo test body, within, _ => shapes body within (Sight.all.filter (test.may true))
  | node kind body, within, seen => shapesNode within kind body seen && shapes body kind seen
  | headed lead keywords otherwise body, within, seen =>
    (otherwise.isSome || shapes lead within seen) &&
      (headKinds keywords otherwise).all fun kind =>
        shapesNode within kind (lead ++ body kind) Sight.all && shapes lead kind seen &&
          shapes (body kind) kind Sight.all
  | call block, within, _ => block.homes.contains within
  | _, _, _ => true

end Rule

theorem rules_yields (block : Nonterminal) :
    ∀ k ∈ (rules block).yields, k ∈ block.yields := by
  cases block <;> decide +kernel

theorem rules_turns (block : Nonterminal) : (rules block).turns = [] := by
  cases block <;> decide +kernel

theorem rules_shapes (block : Nonterminal) :
    ∀ within ∈ block.homes, (rules block).shapes within Sight.all = true := by
  cases block <;> decide +kernel

theorem source_shapes : source.shapes .sourceFile Sight.all = true := by decide +kernel

theorem source_shapesNode : Rule.shapesNode .sourceFile .sourceFile source Sight.all = true := by
  decide +kernel

/-! ### What is read is where the rule puts it -/

theorem kindsOf_join (r s : Reading) :
    kindsOf (r.join s).trees = kindsOf r.trees ++ kindsOf s.trees := kindsOf_append _ _

theorem kindsOf_join_trivia (ts : List Token) (r : Reading) :
    kindsOf ((Reading.trivia ts).join r).trees = kindsOf r.trees := by
  rw [kindsOf_join, Reading.trivia, kindsOf_leaf, List.nil_append]

theorem kindsOf_wrap (kind : NodeKind) (r : Reading) : kindsOf (r.wrap kind).trees = [kind] := rfl

theorem Reads.kinds {rule : Rule} {ts : List Token} {r : Reading} (h : Reads rule ts r) :
    ∀ k ∈ kindsOf r.trees, k ∈ rule.yields := by
  induction h with
  | nothing | missing | done => exact fun k hk => nomatch hk
  | take => exact fun k hk => nomatch (kindsOf_leaf _ ▸ hk : k ∈ [])
  | trivia => exact fun k hk => nomatch (kindsOf_leaf _ ▸ hk : k ∈ [])
  | seq _ _ ihfirst ihsecond =>
      intro k hk
      rw [kindsOf_join, List.mem_append] at hk
      exact List.mem_append.mpr (hk.imp (ihfirst k) (ihsecond k))
  | yes _ _ ih => exact fun k hk => List.mem_append_left _ (ih k hk)
  | no _ _ ih => exact fun k hk => List.mem_append_right _ (ih k hk)
  | again _ _ _ ihbody ihloop =>
      intro k hk
      rw [kindsOf_join, List.mem_append] at hk
      exact hk.elim (ihbody k) (ihloop k)
  | node =>
      intro k hk
      rwa [kindsOf_join_trivia, kindsOf_wrap] at hk
  | bare _ hkind ih =>
      intro k hk
      rw [kindsOf_join_trivia] at hk
      refine List.mem_append_right _ ?_
      rw [otherwise_of_headKind hkind]
      exact ih k hk
  | headed _ hkind =>
      intro k hk
      rw [kindsOf_join_trivia, kindsOf_wrap, List.mem_singleton] at hk
      rw [hk]
      exact List.mem_append_left _ (mem_headKinds hkind)
  | call _ ih => exact fun k hk => rules_yields _ k (ih k hk)

theorem Reads.turns {rule : Rule} {ts : List Token} {r : Reading} (h : Reads rule ts r) :
    (kindsOf r.trees).Pairwise fun a b => (a, b) ∈ rule.turns := by
  induction h with
  | nothing | missing | done => exact .nil
  | take => exact (kindsOf_leaf _).symm ▸ .nil
  | trivia => exact (kindsOf_leaf _).symm ▸ .nil
  | seq hfirst hsecond ihfirst ihsecond =>
      rw [kindsOf_join, List.pairwise_append]
      refine ⟨ihfirst.imp fun h => ?_, ihsecond.imp fun h => ?_, fun a ha b hb => ?_⟩
      · exact List.mem_append_left _ (List.mem_append_left _ h)
      · exact List.mem_append_left _ (List.mem_append_right _ h)
      · exact List.mem_append_right _
          (List.mem_product.mpr ⟨hfirst.kinds a ha, hsecond.kinds b hb⟩)
  | yes _ _ ih => exact ih.imp fun h => List.mem_append_left _ h
  | no _ _ ih => exact ih.imp fun h => List.mem_append_right _ h
  | again _ hbody hloop ihbody ihloop =>
      rw [kindsOf_join, List.pairwise_append]
      refine ⟨ihbody.imp fun h => List.mem_append_left _ h, ihloop, fun a ha b hb => ?_⟩
      exact List.mem_append_right _ (List.mem_product.mpr ⟨hbody.kinds a ha, hloop.kinds b hb⟩)
  | node | headed =>
      rw [kindsOf_join_trivia, kindsOf_wrap]
      exact List.pairwise_singleton _ _
  | bare _ hkind ih =>
      rw [kindsOf_join_trivia, Rule.turns, otherwise_of_headKind hkind]
      exact ih
  | call _ ih => exact ih.imp fun h => by rw [rules_turns] at h; cases h

/-- Where an identifier is seen, taking the next token takes it alone. -/
theorem take_word {ts : List Token} (h : sight ts ∈ Sight.words) :
    ∃ t, (Reading.take (afterTrivia ts)).trees = [.leaf t] ∧ t.kind = .ident := by
  rw [← sight_afterTrivia, sight, ahead?_eq] at h
  cases hts : afterTrivia ts with
  | nil => rw [hts] at h; exact absurd h (by decide)
  | cons t us =>
      have ht : t.isTrivia = false := isTrivia_of_afterTrivia hts
      refine ⟨t, ?_, ?_⟩
      · simp [Reading.take, pendingTrivia, afterTrivia, ht]
      · rw [hts, proper, List.filter_cons_of_pos (by simpa using ht)] at h
        simp only [List.getElem?_cons_zero, Sight.ofToken] at h
        by_cases hword : t.isWord "to" = true
        · simp only [Token.isWord, Bool.and_eq_true, beq_iff_eq] at hword
          exact hword.1
        · rw [if_neg hword] at h
          simpa [Sight.words] using h

/-- A node keeps to the table where its rule does and the trees inside it do. -/
theorem shaped_node {within kind : NodeKind} {body : Rule} {seen : List Sight} {ts : List Token}
    {r : Reading} (hcheck : Rule.shapesNode within kind body seen = true) (hseen : sight ts ∈ seen)
    (hreads : Reads body (afterTrivia ts) r) (hinside : ∀ t ∈ r.trees, Shaped kind t) :
    Shaped within (.node kind r.trees) := by
  simp only [Rule.shapesNode, Bool.and_eq_true, List.all_eq_true, List.contains_iff_mem,
    Bool.or_eq_true, Bool.not_eq_true'] at hcheck
  obtain ⟨⟨hyields, hturns⟩, hwords⟩ := hcheck
  refine .node (fun k hk => hyields k (hreads.kinds k hk)) ?_ ?_ hinside
  · exact hreads.turns.imp fun {a b} h => hturns (a, b) h
  · intro hword
    rcases hwords with hnone | ⟨htake, hsights⟩
    · rw [← List.contains_iff_mem, hnone] at hword
      cases hword
    · cases body with
      | take =>
          cases hreads
          exact take_word (hsights _ hseen)
      | _ => cases htake

theorem shaped_join_trivia {within : NodeKind} {ts : List Token} {r : Reading}
    (h : ∀ t ∈ r.trees, Shaped within t) :
    ∀ t ∈ ((Reading.trivia ts).join r).trees, Shaped within t := by
  intro t ht
  rcases List.mem_append.mp ht with ht | ht
  · obtain ⟨token, -, rfl⟩ := List.mem_map.mp ht
    exact .leaf
  · exact h t ht

/-- **Whatever a rule reads keeps to the table**, if the rule does. -/
theorem Reads.shaped {rule : Rule} {ts : List Token} {r : Reading} (h : Reads rule ts r) :
    ∀ within seen, rule.shapes within seen = true → sight ts ∈ seen →
      ∀ t ∈ r.trees, Shaped within t := by
  induction h with
  | nothing | missing | done => exact fun _ _ _ _ t ht => nomatch ht
  | take | trivia =>
      intro within seen _ _ t ht
      obtain ⟨token, -, rfl⟩ := List.mem_map.mp ht
      exact .leaf
  | seq _ _ ihfirst ihsecond =>
      intro within seen hcheck hseen t ht
      simp only [Rule.shapes, Bool.and_eq_true] at hcheck
      rcases List.mem_append.mp ht with ht | ht
      · exact ihfirst within seen hcheck.1 hseen t ht
      · exact ihsecond within _ hcheck.2 (Sight.mem_all _) t ht
  | yes htest _ ih =>
      intro within seen hcheck hseen
      simp only [Rule.shapes, Bool.and_eq_true] at hcheck
      exact ih within _ hcheck.1 (List.mem_filter.mpr ⟨hseen, Test.may_holds htest⟩)
  | no htest _ ih =>
      intro within seen hcheck hseen
      simp only [Rule.shapes, Bool.and_eq_true] at hcheck
      exact ih within _ hcheck.2 (List.mem_filter.mpr ⟨hseen, Test.may_holds htest⟩)
  | again htest _ _ ihbody ihloop =>
      intro within seen hcheck hseen t ht
      rcases List.mem_append.mp ht with ht | ht
      · exact ihbody within _ hcheck
          (List.mem_filter.mpr ⟨Sight.mem_all _, Test.may_holds htest⟩) t ht
      · exact ihloop within Sight.all hcheck (Sight.mem_all _) t ht
  | node hbody ih =>
      intro within seen hcheck hseen
      simp only [Rule.shapes, Bool.and_eq_true] at hcheck
      refine shaped_join_trivia fun t ht => ?_
      rw [List.mem_singleton.mp ht]
      exact shaped_node hcheck.1 hseen hbody (ih _ seen hcheck.2 (by rwa [sight_afterTrivia]))
  | bare hlead hkind ih =>
      intro within seen hcheck hseen
      simp only [Rule.shapes, Bool.and_eq_true, otherwise_of_headKind hkind, Option.isSome_none,
        Bool.false_or] at hcheck
      exact shaped_join_trivia (ih within seen hcheck.1 (by rwa [sight_afterTrivia]))
  | headed hlead hkind hbody ihlead ihbody =>
      intro within seen hcheck hseen
      simp only [Rule.shapes, Bool.and_eq_true, List.all_eq_true] at hcheck
      obtain ⟨⟨hnode, hleads⟩, hbodies⟩ := hcheck.2 _ (mem_headKinds hkind)
      refine shaped_join_trivia fun t ht => ?_
      rw [List.mem_singleton.mp ht]
      refine shaped_node hnode (Sight.mem_all _) (.seq hlead hbody) fun t ht => ?_
      rcases List.mem_append.mp ht with ht | ht
      · exact ihlead _ seen hleads (by rwa [sight_afterTrivia]) t ht
      · exact ihbody _ Sight.all hbodies (Sight.mem_all _) t ht
  | call hrule ih =>
      intro within seen hcheck _
      exact ih within Sight.all (rules_shapes _ within (by simpa [Rule.shapes] using hcheck))
        (Sight.mem_all _)

/-- A row of tokens read as a whole text keeps to the table. -/
theorem Reads.shaped_source {ts : List Token} {r : Reading} (h : Reads source ts r) :
    Shaped .sourceFile (.node .sourceFile r.trees) := by
  have hcheck := source_shapesNode
  simp only [Rule.shapesNode, Bool.and_eq_true, List.all_eq_true, List.contains_iff_mem] at hcheck
  refine .node (fun k hk => hcheck.1.1 k (h.kinds k hk)) ?_ (fun h => absurd h (by decide))
    (h.shaped _ _ source_shapes (Sight.mem_all _))
  exact h.turns.imp fun {a b} h => by simpa using hcheck.1.2 (a, b) h

end Grammar

/-- **The tree of every text keeps to the table.** -/
theorem shaped_parse (source : String) : Shaped .sourceFile (parse source).tree :=
  (Grammar.reads_readSource (scan source)).shaped_source

end DomainModel
