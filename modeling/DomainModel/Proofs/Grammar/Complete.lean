/-
What is accepted is complete.

A construct may lack any of its parts, but not without a complaint.  So in a text without
errors every construct has a name, and what else it cannot do without: `Tree.Complete` lists
it.  Children that are nodes are found by `given`, from a table of what the rules for a kind
give (`demands`); tokens that stand in a construct themselves by `Rule.lays`, which asks the
same of a token of a kind.  What is found first is the right one, since no node may hold a
child that belongs to another part of it under the same kind.

A part that is there says something: tokens are not empty, and a node of a kind that stands
for one word has a word in it.
-/
import DomainModel.Proofs.Grammar.Origin
import DomainModel.Proofs.Build.Names
import DomainModel.Proofs.Tree.Questions

namespace DomainModel

/-- The text is there and not empty. -/
def Told (text : Option String) : Prop := ∃ word, text = some word ∧ word ≠ ""

namespace NodeKind

/-- The kinds of constructs that have a name of their own. -/
def named : List NodeKind :=
  [.entity, .input, .output, .event, .enumeration, .enumValue, .field, .api, .plugin, .policy,
    .legacyConstant, .configOption, .apiConfig, .pluginConfigOption, .pluginCliOption, .service,
    .legacyService, .serviceMethod, .aggregate, .aggregateCommand, .relationshipGroup]

/-- The kinds of methods and commands. -/
def operations : List NodeKind := [.serviceMethod, .aggregateCommand]

end NodeKind

/-- A tree of a kind has what a construct of that kind cannot do without. -/
structure Tree.Complete (kind : NodeKind) (t : Tree) : Prop where
  name : kind ∈ NodeKind.named → Told t.name?
  fieldType : kind = .field → Told ((t.child? .fieldType).bind identifier?)
  aggregateRoot : kind = .aggregate → Told (t.childWord? .aggregateRoot)
  apiType : kind = .api → Told (t.childWord? .apiType)
  /-- The parameters are a list in parentheses. -/
  parameters : kind ∈ NodeKind.operations → ∃ list, t.child? .methodParams = some list ∧
    ∀ token ∈ [TokenKind.lParen, .rParen], (list.childToken? token).isSome
  /-- A pair is a key and a value and nothing else, and is read as that. -/
  pair : kind = .pair → ∃ key value v, t.childNodes = [key, value] ∧ key.kind? = some .literal ∧
    Told (key.literalToken?.map (·.text)) ∧ value.value? = some v ∧
      keyed t.children = some (key.bareText, v)
  annotated : kind = .annotationNode → Told t.identifier?
  literal : kind ∈ [NodeKind.importStatement, .legacyConstant] → ∃ literal,
    t.literal? = some literal ∧ Told (literal.literalToken?.map (·.text))

namespace Grammar

/-! ### Tokens that are taken or missed -/

/-- The one kind that a test asks the next token to be of. -/
def Test.sought? : Test → Option TokenKind
  | kind 0 [k] => some k
  | _ => none

theorem Test.sought?_holds {test : Test} {ts : List Token} {k : TokenKind}
    (hsought : test.sought? = some k) (h : test.holds ts = true) :
    ∃ t, ahead? ts 0 = some t ∧ t.kind = k := by
  unfold sought? at hsought
  split at hsought
  · obtain rfl := Option.some.inj hsought
    exact holds_kind_iff.mp h
  · exact nomatch hsought

/-- Does a rule take a token of a kind or else complain, where it may be `sure` that one is next? -/
def Rule.lays (k : TokenKind) : Rule → Bool → Bool
  | take, sure => sure
  | missing _, _ => true
  | seq first second, sure => first.lays k sure || second.lays k false
  | ifThen test yes no, sure => yes.lays k (sure || test.sought? == some k) && no.lays k sure
  | _, _ => false

theorem Reads.lays {rule : Rule} {ts : List Token} {r : Reading} (h : Reads rule ts r)
    {k : TokenKind} : ∀ {sure : Bool}, (sure = true → ∃ t, ahead? ts 0 = some t ∧ t.kind = k) →
      rule.lays k sure = true → r.complaints = [] → ∃ t, .leaf t ∈ r.trees ∧ t.kind = k := by
  induction h with
  | missing => exact fun _ _ hnone => absurd hnone (List.cons_ne_nil _ _)
  | take =>
      intro sure hsure hlays _
      obtain ⟨t, hahead, hkind⟩ := hsure hlays
      refine ⟨t, ?_, hkind⟩
      rw [(take_ahead hahead).1]
      exact List.mem_map_of_mem (List.mem_append_right _ (List.mem_singleton_self _))
  | seq _ _ ihfirst ihsecond =>
      intro sure hsure hlays hnone
      obtain ⟨hfirst, hsecond⟩ := List.append_eq_nil_iff.mp hnone
      rcases Bool.or_eq_true_iff.mp hlays with hlays | hlays
      · obtain ⟨t, ht, hkind⟩ := ihfirst hsure hlays hfirst
        exact ⟨t, List.mem_append_left _ ht, hkind⟩
      · obtain ⟨t, ht, hkind⟩ := @ihsecond false nofun hlays hsecond
        exact ⟨t, List.mem_append_right _ ht, hkind⟩
  | yes htest _ ih =>
      intro sure hsure hlays
      refine ih (fun h => ?_) (Bool.and_eq_true_iff.mp hlays).1
      rcases Bool.or_eq_true_iff.mp h with h | h
      · exact hsure h
      · exact Test.sought?_holds (beq_iff_eq.mp h) htest
  | no _ _ ih =>
      intro sure hsure hlays
      exact ih hsure (Bool.and_eq_true_iff.mp hlays).2
  | _ => exact fun _ hlays => nomatch hlays

/-- The kinds of tokens that stand in a construct unless one was missed. -/
def laid : NodeKind → List TokenKind
  | .annotationNode => [.ident]
  | .methodParams => [.lParen, .rParen]
  | _ => []

theorem bodies_lay (kind : NodeKind) :
    ∀ k ∈ laid kind, ∀ b ∈ bodies kind, b.rule.lays k false = true := by
  cases kind <;> decide +kernel

theorem laid_token {source : String} (hnone : (parse source).complaints = []) {t : Tree}
    {kind : NodeKind} {k : TokenKind} (hpart : t.Part (parse source).tree)
    (hkind : t.kind? = some kind) (hk : k ∈ laid kind) : ∃ token, t.childToken? k = some token := by
  have hroot : kind ≠ .sourceFile := fun h => absurd (h ▸ hk) List.not_mem_nil
  obtain ⟨children, rfl⟩ := Tree.exists_node hkind
  obtain ⟨b, hb, ts, r, -, hreads, rfl, hcomplaints⟩ := origin_accepted hnone hpart hroot
  obtain ⟨token, hmem, htoken⟩ :=
    @Reads.lays _ _ _ hreads k false nofun (bodies_lay kind k hk b hb) hcomplaints
  refine Option.isSome_iff_exists.mp (List.find?_isSome.mpr ⟨token, ?_, beq_iff_eq.mpr htoken⟩)
  exact List.mem_filterMap.mpr ⟨_, hmem, rfl⟩

/-! ### Literals and pairs -/

/-- The next token alone is taken. -/
theorem take_one {ts : List Token} {t : Token} (h : ahead? ts 0 = some t) :
    (Reading.take (afterTrivia ts)).trees = [.leaf t] := by
  rw [ahead?_zero_eq] at h
  cases hafter : afterTrivia ts with
  | nil => exact nomatch hafter ▸ h
  | cons u us =>
      rw [hafter] at h
      obtain rfl := Option.some.inj h
      have hproper : u.isTrivia = false := isTrivia_of_afterTrivia hafter
      simp [Reading.take, pendingTrivia, afterTrivia, hproper]

/-- What may be seen of a literal. -/
def Sight.literals : List Sight :=
  .joiner :: [TokenKind.ident, .string, .integer, .decimal].map .kind

/-- A literal is the next token, which is one. -/
theorem bodies_literal : ∀ b ∈ bodies .literal, b.rule.isTake = true ∧
    ∀ s ∈ b.seen, s ∈ Sight.literals := by
  decide +kernel

theorem sight_literal {ts : List Token} (h : sight ts ∈ Sight.literals) :
    ∃ t, ahead? ts 0 = some t ∧ t.kind.isLiteral = true := by
  rw [sight] at h
  cases hahead : ahead? ts 0 with
  | none => rw [hahead] at h; exact absurd h (by decide)
  | some t =>
      refine ⟨t, rfl, ?_⟩
      rw [hahead, Sight.ofToken] at h
      split at h
      · rename_i hword
        rw [beq_iff_eq.mp (Bool.and_eq_true_iff.mp hword).1]
        rfl
      · revert h
        cases t.kind <;> decide

/-- **A literal is one token**, in every text. -/
theorem token_of_literal {source : String} {t : Tree} (hpart : t.Part (parse source).tree)
    (hkind : t.kind? = some .literal) :
    ∃ token, t = .node .literal [.leaf token] ∧ token.kind.isLiteral = true := by
  obtain ⟨children, rfl⟩ := Tree.exists_node hkind
  obtain ⟨⟨rule, seen⟩, hb, ts, r, hseen, hreads, rfl, -⟩ := origin_parse hpart nofun
  obtain ⟨htake, hsights⟩ := bodies_literal _ hb
  obtain ⟨token, hahead, hliteral⟩ := sight_literal (hsights _ hseen)
  cases rule with
  | take =>
      cases hreads
      exact ⟨token, by rw [take_one hahead], hliteral⟩
  | _ => exact nomatch htake

theorem nodes_join (r s : Reading) :
    Tree.nodes (r.join s).trees = Tree.nodes r.trees ++ Tree.nodes s.trees :=
  Tree.nodes_append _ _

/-- Among the trees is one node, of one of the kinds. -/
def OneNode (kinds : List NodeKind) (ts : List Tree) : Prop :=
  ∃ t kind, Tree.nodes ts = [t] ∧ t.kind? = some kind ∧ kind ∈ kinds

theorem Reads.node_one {kind : NodeKind} {body : Rule} {ts : List Token} {r : Reading}
    (h : Reads (.node kind body) ts r) {kinds : List NodeKind} (hkind : kind ∈ kinds) :
    OneNode kinds r.trees := by
  cases h with
  | @node _ _ _ r =>
      refine ⟨.node kind r.trees, kind, ?_, rfl, hkind⟩
      rw [nodes_join, Reading.trivia, Tree.nodes_leaf]
      rfl

theorem Reads.literal_one {ts : List Token} {r : Reading} (h : Reads literal ts r)
    (hnone : r.complaints = []) {kinds : List NodeKind} (hkind : .literal ∈ kinds) :
    OneNode kinds r.trees := by
  cases h with
  | yes _ hyes => exact hyes.node_one hkind
  | no _ hno =>
      cases hno
      exact absurd hnone (List.cons_ne_nil _ _)

/-- A value is a literal, an object or an array. -/
theorem Reads.value_one {ts : List Token} {r : Reading} (h : Reads (.call .value) ts r)
    (hnone : r.complaints = []) : OneNode [.literal, .object, .array] r.trees := by
  cases h with
  | call hrule =>
  cases hrule with
  | yes _ hobject => exact hobject.node_one (by decide)
  | no _ hrest =>
  cases hrest with
  | yes _ harray => exact harray.node_one (by decide)
  | no _ hliteral => exact hliteral.literal_one hnone (by decide)

/-- Pairs are read by one rule. -/
theorem bodies_pair : (bodies .pair).map (fun b => Rule.node .pair b.rule) =
    List.replicate (bodies .pair).length pair := rfl

/-- A value stands for something. -/
theorem value?_of_kind {t : Tree} {kind : NodeKind} (hkind : t.kind? = some kind)
    (hmem : kind ∈ [NodeKind.literal, .object, .array]) : ∃ v, t.value? = some v := by
  obtain ⟨children, rfl⟩ := Tree.exists_node hkind
  simp only [List.mem_cons, List.not_mem_nil, or_false] at hmem
  rcases hmem with rfl | rfl | rfl <;> exact ⟨_, by rw [Tree.value?]⟩

/-- A token that is expected is no node. -/
theorem Reads.expect_nodes {kind : TokenKind} {ts : List Token} {r : Reading}
    (h : Reads (.expect kind) ts r) : Tree.nodes r.trees = [] := by
  cases h with
  | yes _ htake =>
      cases htake
      exact Tree.nodes_leaf _
  | no _ hno =>
      cases hno
      rfl

/-- **A pair is a key and a value**, and read as that. -/
theorem pair_nodes {source : String} (hnone : (parse source).complaints = []) {children : List Tree}
    (hpart : (Tree.node .pair children).Part (parse source).tree) : ∃ key value v,
      (Tree.node .pair children).childNodes = [key, value] ∧ key.kind? = some .literal ∧
        value.value? = some v ∧ Tree.keyed children = some (key.bareText, v) := by
  obtain ⟨⟨rule, seen⟩, hb, ts, r, -, hreads, rfl, hcomplaints⟩ := origin_accepted hnone hpart nofun
  obtain rfl := rule_of_bodies bodies_pair hb
  cases hreads with
  | @seq _ _ _ _ third hfront hvalue =>
  cases hfront with
  | @seq _ _ _ first second hkey hcolon =>
  obtain ⟨hcomplaints, hthird⟩ := List.append_eq_nil_iff.mp hcomplaints
  obtain ⟨hfirst, hsecond⟩ := List.append_eq_nil_iff.mp hcomplaints
  obtain ⟨key, kind, hkey, hkind, hliteral⟩ := hkey.literal_one hfirst (List.mem_singleton_self _)
  obtain rfl := List.mem_singleton.mp hliteral
  obtain ⟨value, kind', hvalue, hkind', hmem⟩ := hvalue.value_one hthird
  obtain ⟨v, hv⟩ := value?_of_kind hkind' hmem
  have hchildren : Tree.nodes ((first.join second).join third).trees = [key, value] := by
    rw [nodes_join, nodes_join, hkey, hcolon.expect_nodes, hvalue]
    rfl
  refine ⟨key, value, v, hchildren, hkind, hv, ?_⟩
  rw [← Tree.keyed_nodes, hchildren]
  obtain ⟨parts, rfl⟩ := Tree.exists_node hkind
  obtain ⟨parts', rfl⟩ := Tree.exists_node hkind'
  rw [Tree.keyed, Tree.pairedValue, hv]
  rfl

/-! ### What a construct demands -/

/-- The kinds of children that a construct is not complete without. -/
def demands (kind : NodeKind) : List NodeKind :=
  (if NodeKind.named.contains kind then [.name] else []) ++
    match kind with
    | .field => [.fieldType]
    | .aggregate => [.aggregateRoot]
    | .api => [.apiType]
    | .serviceMethod | .aggregateCommand => [.methodParams]
    | .importStatement | .legacyConstant => [.literal]
    | _ => []

theorem name_demanded {kind : NodeKind} (h : kind ∈ NodeKind.named) : .name ∈ demands kind := by
  refine List.mem_append_left _ ?_
  rw [if_pos (List.contains_iff_mem.mpr h)]
  exact List.mem_singleton_self _

theorem bodies_demand (kind : NodeKind) :
    ∀ need ∈ demands kind, ∀ b ∈ bodies kind, b.rule.gives need = true := by
  cases kind <;> decide +kernel

section
variable {source : String} {t : Tree} {kind need : NodeKind}

theorem demanded (hnone : (parse source).complaints = []) (hpart : t.Part (parse source).tree)
    (hkind : t.kind? = some kind) (hneed : need ∈ demands kind) :
    ∃ child, t.child? need = some child ∧ child.Part (parse source).tree ∧
      child.kind? = some need := by
  have hroot : kind ≠ .sourceFile := by
    rintro rfl
    exact absurd hneed List.not_mem_nil
  obtain ⟨child, hchild⟩ :=
    given hnone hpart hkind hroot (bodies_demand kind need hneed)
  obtain ⟨hmem, hchildKind⟩ := Tree.child?_spec hchild
  exact ⟨child, hchild, (Tree.part_of_mem hmem).trans hpart, hchildKind⟩

/-- No token of a text is empty. -/
theorem text_of_part (hpart : t.Part (parse source).tree) {token : Token}
    (h : .leaf token ∈ t.children) : token.text ≠ "" := by
  obtain ⟨before, after, hsplit⟩ := ((Tree.part_of_mem h).trans hpart).leaves_split
  have hmem : token ∈ scan source := by
    rw [← leaves_parse, hsplit]
    exact List.mem_append_left _ (List.mem_append_right _ (List.mem_singleton_self _))
  intro hempty
  have hpos := scan_nonempty hmem
  rw [hempty] at hpos
  exact absurd hpos (by decide)

/-- A child that is a word says something. -/
theorem told_word (hnone : (parse source).complaints = []) (hpart : t.Part (parse source).tree)
    (hkind : t.kind? = some kind) (hneed : need ∈ demands kind) (hword : need ∈ NodeKind.words) :
    Told (t.childWord? need) := by
  obtain ⟨child, hchild, hchildPart, hchildKind⟩ := demanded hnone hpart hkind hneed
  obtain ⟨_, hshaped⟩ := Shaped.part hchildPart (shaped_parse source)
  obtain ⟨token, rfl, hident⟩ := hshaped.word hchildKind hword
  refine ⟨token.text, ?_, text_of_part hchildPart (List.mem_singleton_self _)⟩
  rw [Tree.childWord?, hchild, Option.bind_some, Tree.word?_word hident]

theorem told_token (hpart : t.Part (parse source).tree) {k : TokenKind} {token : Token}
    (h : t.childToken? k = some token) : Told ((t.childToken? k).map (·.text)) :=
  ⟨token.text, by rw [h]; rfl, text_of_part hpart (Tree.childToken?_spec h).1⟩

theorem told_literal (hpart : t.Part (parse source).tree) (hkind : t.kind? = some .literal) :
    Told (t.literalToken?.map (·.text)) := by
  obtain ⟨token, rfl, hliteral⟩ := token_of_literal hpart hkind
  refine ⟨token.text, ?_, text_of_part hpart (List.mem_singleton_self _)⟩
  show ([token].find? (·.kind.isLiteral)).map _ = _
  rw [List.find?_cons, hliteral]
  rfl

theorem told_fieldType (hnone : (parse source).complaints = [])
    (hpart : t.Part (parse source).tree) (hkind : t.kind? = some .field) :
    Told ((t.child? .fieldType).bind Tree.identifier?) := by
  obtain ⟨type, htype, htypePart, htypeKind⟩ :=
    demanded hnone hpart hkind (by decide : NodeKind.fieldType ∈ demands .field)
  obtain ⟨children, rfl⟩ := Tree.exists_node htypeKind
  obtain ⟨name, hident, hform⟩ := typeForm htypePart
  have hmem : .leaf name ∈ (Tree.node .fieldType children).children := by
    cases hform <;> simp [Tree.children]
  refine ⟨name.text, ?_, text_of_part htypePart hmem⟩
  rw [htype, Option.bind_some, hform.identifier? hident]

end

end Grammar

/-- **In a text without errors every construct is complete.** -/
theorem complete_parse {source : String} (hnone : (parse source).complaints = []) {t : Tree}
    {kind : NodeKind} (hpart : t.Part (parse source).tree) (hkind : t.kind? = some kind) :
    t.Complete kind := by
  refine ⟨fun hnamed => ?_, ?_, ?_, ?_, fun hoperation => ?_, ?_, ?_, fun hliteral => ?_⟩
  · exact Grammar.told_word hnone hpart hkind (Grammar.name_demanded hnamed) (by decide)
  · rintro rfl
    exact Grammar.told_fieldType hnone hpart hkind
  · rintro rfl
    exact Grammar.told_word hnone hpart hkind (by decide) (by decide)
  · rintro rfl
    exact Grammar.told_word hnone hpart hkind (by decide) (by decide)
  · have hneed : NodeKind.methodParams ∈ Grammar.demands kind := by
      rcases List.mem_pair.mp hoperation with rfl | rfl <;> decide
    obtain ⟨list, hlist, hlistPart, hlistKind⟩ := Grammar.demanded hnone hpart hkind hneed
    exact ⟨list, hlist, fun k hk =>
      Option.isSome_iff_exists.mpr (Grammar.laid_token hnone hlistPart hlistKind hk)⟩
  · rintro rfl
    obtain ⟨children, rfl⟩ := Tree.exists_node hkind
    obtain ⟨key, value, v, hnodes, hkey, hv, hkeyed⟩ := Grammar.pair_nodes hnone hpart
    have hmem : key ∈ (Tree.node .pair children).childNodes := hnodes ▸ List.mem_cons_self ..
    have hkeyPart := (Tree.part_of_mem (List.mem_filter.mp hmem).1).trans hpart
    exact ⟨key, value, v, hnodes, hkey, Grammar.told_literal hkeyPart hkey, hv, hkeyed⟩
  · rintro rfl
    obtain ⟨token, htoken⟩ := Grammar.laid_token hnone hpart hkind (List.mem_singleton_self _)
    exact Grammar.told_token hpart htoken
  · have hneed : NodeKind.literal ∈ Grammar.demands kind := by
      rcases List.mem_pair.mp hliteral with rfl | rfl <;> decide
    obtain ⟨literal, hchild, hchildPart, hchildKind⟩ := Grammar.demanded hnone hpart hkind hneed
    exact ⟨literal, hchild, Grammar.told_literal hchildPart hchildKind⟩

end DomainModel
