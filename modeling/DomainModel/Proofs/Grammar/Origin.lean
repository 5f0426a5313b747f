/-
Every node comes from a rule.

A grammar is data, so the bodies of its rules for nodes of one kind can be listed, each with
what may be seen ahead where it is read (`bodies`).  `Reads.origin` finds for every node of a
tree the body by which its children were read, and a node of a tree without complaints was
read without complaints.

This turns questions about all trees into questions about a few short rules.  What a
construct cannot do without is there if nothing was missed (`needed`); the type of a field is
a word, with brackets behind it or without; and an entry of a list of events is one word.
-/
import DomainModel.Proofs.Grammar.Shape
import DomainModel.Tree.View

namespace DomainModel.Grammar

/-! ### The bodies of a grammar -/

/-- The body of a rule for nodes, with what may be seen where it is read. -/
structure Body where
  rule : Rule
  seen : List Sight

/-- The bodies in a rule for nodes of a kind, when it is read at one of the sights. -/
def Rule.bodies (kind : NodeKind) : Rule → List Sight → List Body
  | seq first second, seen => first.bodies kind seen ++ second.bodies kind Sight.all
  | ifThen test yes no, seen =>
    yes.bodies kind (seen.filter (test.may true)) ++ no.bodies kind (seen.filter (test.may false))
  | whileDo test body, _ => body.bodies kind (Sight.all.filter (test.may true))
  | node k body, seen => (if k = kind then [⟨body, seen⟩] else []) ++ body.bodies kind seen
  | headed lead keywords otherwise body, seen =>
    lead.bodies kind seen ++ (headKinds keywords otherwise).flatMap fun k =>
      (if k = kind then [⟨lead ++ body k, seen⟩] else []) ++ (body k).bodies kind Sight.all
  | _, _ => []

/-- The bodies in the blocks that may contain themselves. -/
def blockBodies (kind : NodeKind) : List Body :=
  (rules .field).bodies kind Sight.all ++ (rules .value).bodies kind Sight.all

/-- The bodies of the grammar for nodes of a kind. -/
def bodies (kind : NodeKind) : List Body := source.bodies kind Sight.all ++ blockBodies kind

/-- The children of a node can be what the body reads, with no complaints but these. -/
def Body.Makes (b : Body) (children : List Tree) (complaints : List Complaint) : Prop :=
  ∃ ts r, sight ts ∈ b.seen ∧ Reads b.rule (afterTrivia ts) r ∧ r.trees = children ∧
    r.complaints ⊆ complaints

theorem Body.Makes.mono {b : Body} {children : List Tree} {cs ds : List Complaint}
    (h : b.Makes children cs) (hcs : cs ⊆ ds) : b.Makes children ds := by
  obtain ⟨ts, r, hseen, hreads, htrees, hcomplaints⟩ := h
  exact ⟨ts, r, hseen, hreads, htrees, List.Subset.trans hcomplaints hcs⟩

theorem blockBodies_of_call {kind : NodeKind} (block : Nonterminal) {b : Body}
    (h : b ∈ (rules block).bodies kind Sight.all) : b ∈ blockBodies kind := by
  cases block with
  | field => exact List.mem_append_left _ h
  | value => exact List.mem_append_right _ h

/-- **Every node that is read comes from a body of the rule** or of a block that it calls. -/
theorem Reads.origin {rule : Rule} {ts : List Token} {r : Reading} (h : Reads rule ts r)
    {kind : NodeKind} {children : List Tree} : ∀ {seen}, sight ts ∈ seen → ∀ t ∈ r.trees,
      (Tree.node kind children).Part t →
        ∃ b ∈ rule.bodies kind seen ++ blockBodies kind, b.Makes children r.complaints := by
  have leaf : ∀ {token}, ¬(Tree.node kind children).Part (.leaf token) := fun h => nomatch h
  -- A body found in a part of the rule is one of the rule, and a complaint of a part one of the
  -- whole.
  have grow : ∀ {bs bs' : List Body} {cs ds : List Complaint}, bs ⊆ bs' → cs ⊆ ds →
      (∃ b ∈ bs ++ blockBodies kind, b.Makes children cs) →
        ∃ b ∈ bs' ++ blockBodies kind, b.Makes children ds := by
    rintro bs bs' cs ds hbs hcs ⟨b, hb, hmakes⟩
    exact ⟨b, List.append_subset.mpr ⟨List.subset_append_of_subset_left _ hbs,
      List.subset_append_right ..⟩ hb, hmakes.mono hcs⟩
  induction h with
  | nothing | missing | done => exact fun _ t ht => nomatch ht
  | take | trivia =>
      intro seen _ t ht hpart
      obtain ⟨token, -, rfl⟩ := List.mem_map.mp ht
      exact absurd hpart leaf
  | seq _ _ ihfirst ihsecond =>
      intro seen hseen t ht hpart
      rcases List.mem_append.mp ht with ht | ht
      · exact grow (List.subset_append_left ..) (List.subset_append_left ..)
          (ihfirst hseen t ht hpart)
      · exact grow (List.subset_append_right ..) (List.subset_append_right ..)
          (ihsecond (Sight.mem_all _) t ht hpart)
  | yes htest _ ih =>
      intro seen hseen t ht hpart
      exact grow (List.subset_append_left ..) (List.Subset.refl _)
        (ih (List.mem_filter.mpr ⟨hseen, Test.may_holds htest⟩) t ht hpart)
  | no htest _ ih =>
      intro seen hseen t ht hpart
      exact grow (List.subset_append_right ..) (List.Subset.refl _)
        (ih (List.mem_filter.mpr ⟨hseen, Test.may_holds htest⟩) t ht hpart)
  | again htest _ _ ihbody ihloop =>
      intro seen hseen t ht hpart
      rcases List.mem_append.mp ht with ht | ht
      · exact grow (List.Subset.refl _) (List.subset_append_left ..)
          (ihbody (List.mem_filter.mpr ⟨Sight.mem_all _, Test.may_holds htest⟩) t ht hpart)
      · exact grow (List.Subset.refl _) (List.subset_append_right ..)
          (@ihloop Sight.all (Sight.mem_all _) t ht hpart)
  | @node k body ts r hbody ih =>
      intro seen hseen t ht hpart
      rcases List.mem_append.mp ht with ht | ht
      · obtain ⟨token, -, rfl⟩ := List.mem_map.mp ht
        exact absurd hpart leaf
      · obtain rfl := List.mem_singleton.mp ht
        cases hpart with
        | whole =>
            exact ⟨⟨body, seen⟩, by simp [Rule.bodies], ts, r, hseen, hbody, rfl,
              List.Subset.refl _⟩
        | inside hmem hpart =>
            exact grow (List.subset_append_right ..) (List.Subset.refl _)
              (ih (by rwa [sight_afterTrivia]) _ hmem hpart)
  | bare _ _ ih =>
      intro seen hseen t ht hpart
      rcases List.mem_append.mp ht with ht | ht
      · obtain ⟨token, -, rfl⟩ := List.mem_map.mp ht
        exact absurd hpart leaf
      · exact grow (List.subset_append_left ..) (List.Subset.refl _)
          (ih (by rwa [sight_afterTrivia]) t ht hpart)
  | @headed lead keywords otherwise body ts r k s hlead hkind hbody ihlead ihbody =>
      intro seen hseen t ht hpart
      have hk := mem_headKinds hkind
      rcases List.mem_append.mp ht with ht | ht
      · obtain ⟨token, -, rfl⟩ := List.mem_map.mp ht
        exact absurd hpart leaf
      · obtain rfl := List.mem_singleton.mp ht
        cases hpart with
        | whole =>
            refine ⟨⟨lead ++ body kind, seen⟩, ?_, ts, r.join s, hseen, .seq hlead hbody, rfl,
              List.Subset.refl _⟩
            refine List.mem_append_left _ (List.mem_append_right _ ?_)
            refine List.mem_flatMap.mpr ⟨kind, hk, ?_⟩
            simp
        | inside hmem hpart =>
            rcases List.mem_append.mp hmem with hmem | hmem
            · exact grow (List.subset_append_left ..)
                (show r.complaints ⊆ r.complaints ++ s.complaints from List.subset_append_left ..)
                (ihlead (by rwa [sight_afterTrivia]) _ hmem hpart)
            · refine @grow ((body k).bodies kind Sight.all) _ _ _ (fun b hb => ?_)
                (show s.complaints ⊆ r.complaints ++ s.complaints from List.subset_append_right ..)
                (ihbody (Sight.mem_all _) _ hmem hpart)
              exact List.mem_append_right _
                (List.mem_flatMap.mpr ⟨k, hk, List.mem_append_right _ hb⟩)
  | call _ ih =>
      intro seen hseen t ht hpart
      obtain ⟨b, hb, hmakes⟩ := ih (Sight.mem_all _) t ht hpart
      refine ⟨b, List.mem_append_right _ ?_, hmakes⟩
      rcases List.mem_append.mp hb with hb | hb
      · exact blockBodies_of_call _ hb
      · exact hb

/-- **Every node of a text but the whole comes from a body of the grammar.** -/
theorem origin_parse {source : String} {kind : NodeKind} {children : List Tree}
    (hpart : (Tree.node kind children).Part (parse source).tree) (hkind : kind ≠ .sourceFile) :
    ∃ b ∈ bodies kind, b.Makes children (parse source).complaints := by
  cases hpart with
  | whole => exact absurd rfl hkind
  | inside hmem hpart =>
      exact (reads_readSource (scan source)).origin (Sight.mem_all _) _ hmem hpart

/-- Where nothing was missed, it was read without complaints. -/
theorem origin_accepted {source : String} (hnone : (parse source).complaints = [])
    {kind : NodeKind} {children : List Tree}
    (hpart : (Tree.node kind children).Part (parse source).tree) (hkind : kind ≠ .sourceFile) :
    ∃ b ∈ bodies kind, ∃ ts r, sight ts ∈ b.seen ∧ Reads b.rule (afterTrivia ts) r ∧
      r.trees = children ∧ r.complaints = [] := by
  obtain ⟨b, hb, ts, r, hseen, hreads, htrees, hcomplaints⟩ := origin_parse hpart hkind
  rw [hnone, List.subset_nil] at hcomplaints
  exact ⟨b, hb, ts, r, hseen, hreads, htrees, hcomplaints⟩

/-! ### What no construct can do without -/

/-- Does a rule read a node of a kind or else complain? -/
def Rule.gives (kind : NodeKind) : Rule → Bool
  | missing _ => true
  | seq first second => first.gives kind || second.gives kind
  | ifThen _ yes no => yes.gives kind && no.gives kind
  | node k _ => k == kind
  | _ => false

theorem Reads.gives {rule : Rule} {ts : List Token} {r : Reading} (h : Reads rule ts r)
    {kind : NodeKind} (hgives : rule.gives kind = true) (hnone : r.complaints = []) :
    ∃ t ∈ r.trees, t.isNode kind = true := by
  induction h with
  | missing => exact absurd hnone (List.cons_ne_nil _ _)
  | seq _ _ ihfirst ihsecond =>
      obtain ⟨hfirst, hsecond⟩ := List.append_eq_nil_iff.mp hnone
      rw [Rule.gives, Bool.or_eq_true] at hgives
      rcases hgives with hgives | hgives
      · obtain ⟨t, ht, hkind⟩ := ihfirst hgives hfirst
        exact ⟨t, List.mem_append_left _ ht, hkind⟩
      · obtain ⟨t, ht, hkind⟩ := ihsecond hgives hsecond
        exact ⟨t, List.mem_append_right _ ht, hkind⟩
  | yes _ _ ih => exact ih (Bool.and_eq_true _ _ ▸ hgives).1 hnone
  | no _ _ ih => exact ih (Bool.and_eq_true _ _ ▸ hgives).2 hnone
  | @node k body ts r =>
      obtain rfl := beq_iff_eq.mp hgives
      exact ⟨_, List.mem_append_right _ (List.mem_singleton_self _), beq_self_eq_true _⟩
  | _ => exact nomatch hgives

/-- **In a text without complaints a construct has the child that its rules give.** -/
theorem given {source : String} (hnone : (parse source).complaints = []) {t : Tree}
    {kind need : NodeKind} (hpart : t.Part (parse source).tree) (hkind : t.kind? = some kind)
    (hroot : kind ≠ .sourceFile) (hgives : ∀ b ∈ bodies kind, b.rule.gives need = true) :
    ∃ child, t.child? need = some child := by
  obtain ⟨children, rfl⟩ := Tree.exists_node hkind
  obtain ⟨b, hb, ts, r, -, hreads, rfl, hcomplaints⟩ := origin_accepted hnone hpart hroot
  obtain ⟨u, hu, hnode⟩ := hreads.gives (hgives b hb) hcomplaints
  exact Option.isSome_iff_exists.mp (List.find?_isSome.mpr ⟨u, hu, hnode⟩)

/-- The kinds of children that a construct has unless one was missed. -/
def needs : NodeKind → List NodeKind
  | .api => [.name, .apiType]
  | .aggregate => [.name, .aggregateRoot]
  | .field => [.name, .fieldType]
  | .plugin | .entity | .input | .output | .event | .enumeration | .service | .legacyService
  | .serviceMethod | .aggregateCommand | .serviceAggregates
  | .relationshipFrom | .relationshipTo => [.name]
  | _ => []

theorem bodies_give (kind : NodeKind) :
    ∀ b ∈ bodies kind, ∀ need ∈ needs kind, b.rule.gives need = true := by
  cases kind <;> decide +kernel

/-- **In a text without complaints a construct has what it needs.** -/
theorem needed {source : String} (hnone : (parse source).complaints = []) {t : Tree}
    {kind need : NodeKind} (hpart : t.Part (parse source).tree) (hkind : t.kind? = some kind)
    (hneed : need ∈ needs kind) : ∃ child, t.child? need = some child := by
  have hroot : kind ≠ .sourceFile := fun h => absurd (h ▸ hneed) List.not_mem_nil
  exact given hnone hpart hkind hroot fun b hb => bodies_give kind b hb need hneed

/-! ### Taking the next token -/

theorem ahead?_zero_eq (ts : List Token) : ahead? ts 0 = (afterTrivia ts).head? := by
  rw [ahead?_eq, ← proper_afterTrivia]
  cases h : afterTrivia ts with
  | nil => rfl
  | cons t us => rw [proper, List.filter_cons_of_pos (by simp [isTrivia_of_afterTrivia h])]; rfl

/-- What taking the next token takes, and what is next behind it. -/
theorem take_ahead {ts : List Token} {t : Token} (h : ahead? ts 0 = some t) :
    (Reading.take ts).trees = (pendingTrivia ts ++ [t]).map .leaf ∧
      ahead? (Reading.take ts).rest 0 = ahead? ts 1 := by
  rw [ahead?_zero_eq] at h
  obtain ⟨us, hus⟩ : ∃ us, afterTrivia ts = t :: us := ⟨_, List.eq_cons_of_mem_head? h⟩
  refine ⟨by rw [Reading.take, hus]; rfl, ?_⟩
  have hproper : proper ts = t :: proper us := by
    rw [← proper_afterTrivia, hus, proper,
      List.filter_cons_of_pos (by simp [isTrivia_of_afterTrivia hus])]
    rfl
  rw [Reading.take, hus, ahead?_eq, ahead?_eq, hproper]
  rfl

/-- Where the text does not end, there is a next token. -/
theorem exists_ahead {ts : List Token} (h : sight ts ≠ .ending) : ∃ t, ahead? ts 0 = some t := by
  cases hnext : ahead? ts 0 with
  | none =>
      rw [sight, hnext] at h
      exact absurd rfl h
  | some t => exact ⟨t, rfl⟩

theorem holds_kind_iff {ts : List Token} {n : Nat} {kind : TokenKind} :
    (Test.kind n [kind]).holds ts = true ↔ ∃ t, ahead? ts n = some t ∧ t.kind = kind := by
  cases h : ahead? ts n <;> simp [Test.holds, h]

/-- An identifier ahead is seen as one. -/
theorem sight_word {ts : List Token} {t : Token} (h : ahead? ts 0 = some t)
    (hkind : t.kind = .ident) : sight ts ∈ Sight.words := by
  rw [sight, h, Sight.ofToken]
  split
  · decide
  · rw [hkind]
    decide

/-! ### Types of fields -/

/-- What stands in the type of a field: a word, or a word and a pair of brackets. -/
inductive TypeForm (name : Token) : List Tree → Prop
  | plain : TypeForm name [.leaf name]
  | array {gap gap' : List Token} {opening closing : Token}
      (hgap : ∀ t ∈ gap ++ gap', t.isTrivia = true) (hopening : opening.kind = .lBracket)
      (hclosing : closing.kind = .rBracket) :
      TypeForm name ((name :: gap ++ opening :: gap' ++ [closing]).map .leaf)

theorem isTrivia_of_pending {ts : List Token} : ∀ t ∈ pendingTrivia ts, t.isTrivia = true :=
  List.all_eq_true.mp List.all_takeWhile

theorem Reads.brackets {ts : List Token} {r : Reading} (h : Reads (brackets .nothing) ts r) :
    r.trees = [] ∨ ∃ gap gap' opening closing, (∀ t ∈ gap ++ gap', t.isTrivia = true) ∧
      opening.kind = .lBracket ∧ closing.kind = .rBracket ∧
        r.trees = (gap ++ opening :: gap' ++ [closing]).map .leaf := by
  cases h with
  | no _ hno =>
      cases hno
      exact .inl rfl
  | yes htest hyes =>
      cases hyes with
      | seq hfirst hsecond =>
      cases hfirst
      cases hsecond
      obtain ⟨hfirst, hsecond⟩ := Bool.and_eq_true _ _ ▸ htest
      obtain ⟨opening, hahead, hopening⟩ := holds_kind_iff.mp hfirst
      obtain ⟨closing, hnext, hclosing⟩ := holds_kind_iff.mp hsecond
      obtain ⟨hone, hrest⟩ := take_ahead hahead
      obtain ⟨htwo, -⟩ := take_ahead (hrest.trans hnext)
      refine .inr ⟨pendingTrivia ts, pendingTrivia (Reading.take ts).rest, opening, closing,
        fun t ht => ?_, hopening, hclosing, ?_⟩
      · exact (List.mem_append.mp ht).elim (isTrivia_of_pending t) (isTrivia_of_pending t)
      · show (Reading.take ts).trees ++ (Reading.take (Reading.take ts).rest).trees = _
        rw [hone, htwo, ← List.map_append, List.append_assoc, List.append_assoc]
        rfl

/-- **The type of a field is a word**, with brackets behind it or without. -/
theorem typeForm {source : String} {children : List Tree}
    (hpart : (Tree.node .fieldType children).Part (parse source).tree) :
    ∃ name, name.kind = .ident ∧ TypeForm name children := by
  obtain ⟨b, hb, ts, r, hseen, hreads, rfl, -⟩ := origin_parse hpart nofun
  obtain rfl : b = ⟨.take ++ brackets .nothing, Sight.words⟩ := List.mem_singleton.mp hb
  cases hreads with
  | seq hfirst hsecond =>
  cases hfirst
  obtain ⟨name, hname, hident⟩ := take_word hseen
  refine ⟨name, hident, ?_⟩
  rw [Reading.join, hname]
  rcases hsecond.brackets with htrees |
    ⟨gap, gap', opening, closing, hgap, hopening, hclosing, htrees⟩
  · rw [htrees]
    exact .plain
  · rw [htrees]
    exact .array hgap hopening hclosing

theorem TypeForm.identifier? {name : Token} {children : List Tree} (hname : name.kind = .ident)
    (h : TypeForm name children) (kind : NodeKind) :
    (Tree.node kind children).identifier? = some name.text := by
  obtain ⟨rest, rfl⟩ : ∃ rest, children = .leaf name :: rest := by
    cases h with
    | plain => exact ⟨[], rfl⟩
    | array => exact ⟨_, rfl⟩
  have htokens : (Tree.node kind (.leaf name :: rest)).childTokens =
      name :: rest.filterMap Tree.token? := rfl
  rw [Tree.identifier?, Tree.childToken?, htokens, List.find?_cons, hname]
  rfl

/-- A type without brackets is its word. -/
theorem TypeForm.eq_of_hasBrackets {name : Token} {children : List Tree} {kind : NodeKind}
    (h : TypeForm name children) (hnone : (Tree.node kind children).hasBrackets = false) :
    children = [.leaf name] := by
  cases h with
  | plain => rfl
  | @array gap gap' opening closing _ hopening _ =>
      have hmem : opening ∈ (Tree.node kind
          ((name :: gap ++ opening :: gap' ++ [closing]).map .leaf)).childTokens :=
        List.mem_filterMap.mpr ⟨.leaf opening, List.mem_map_of_mem (by simp), rfl⟩
      rw [Tree.hasBrackets, Tree.childToken?, Option.isSome_eq_false_iff, Option.isNone_iff_eq_none,
        List.find?_eq_none] at hnone
      exact absurd (beq_iff_eq.mpr hopening) (hnone opening hmem)

/-- The block of a field begins with its brace. -/
theorem leaf_of_nestedField {source : String} {children : List Tree}
    (hpart : (Tree.node .nestedField children).Part (parse source).tree) :
    ∃ token, Tree.leaf token ∈ children := by
  obtain ⟨b, hb, ts, r, hseen, hreads, rfl, -⟩ := origin_parse hpart (by decide)
  obtain rfl : b = ⟨.take ++ fields ++ .expect .rBrace ++ validations, [.kind .lBrace]⟩ :=
    List.mem_singleton.mp hb
  cases hreads with
  | seq hblock _ =>
  cases hblock with
  | seq hfields _ =>
  cases hfields with
  | seq hbrace _ =>
  cases hbrace
  have hsight : sight (afterTrivia ts) ≠ .ending := by
    rw [sight_afterTrivia, List.mem_singleton.mp hseen]
    decide
  obtain ⟨token, hahead⟩ := exists_ahead hsight
  refine ⟨token, List.mem_append_left _ (List.mem_append_left _ (List.mem_append_left _ ?_))⟩
  rw [(take_ahead hahead).1]
  exact List.mem_map_of_mem (List.mem_append_right _ (List.mem_singleton_self _))

/-! ### Events -/

/-- All nodes of a kind among some trees are one word. -/
def Worded (kind : NodeKind) (ts : List Tree) : Prop :=
  ∀ u ∈ ts, u.isNode kind = true → ∃ word, u.children = [.leaf word] ∧ word.kind = .ident

theorem Worded.append {kind : NodeKind} {ts us : List Tree} (h : Worded kind ts)
    (h' : Worded kind us) : Worded kind (ts ++ us) :=
  List.forall_mem_append.mpr ⟨h, h'⟩

/-- Nodes of other kinds are no matter. -/
theorem Reads.worded_of_yields {rule : Rule} {ts : List Token} {r : Reading} (h : Reads rule ts r)
    {kind : NodeKind} (hkind : kind ∉ rule.yields) : Worded kind r.trees :=
  fun u hu hnode =>
    absurd (h.kinds kind (List.mem_filterMap.mpr ⟨u, hu, beq_iff_eq.mp hnode⟩)) hkind

theorem Reads.worded_single {kind : NodeKind} {ts : List Token} {r : Reading}
    (h : Reads (.single kind) ts r) (hseen : sight ts ∈ Sight.words) : Worded kind r.trees := by
  cases h with
  | node hbody =>
  cases hbody
  obtain ⟨word, htrees, hident⟩ := take_word hseen
  intro u hu hnode
  rcases List.mem_append.mp hu with hu | hu
  · obtain ⟨token, -, rfl⟩ := List.mem_map.mp hu
    exact nomatch hnode
  · obtain rfl := List.mem_singleton.mp hu
    exact ⟨word, htrees, hident⟩

/-- Alternatives of a group: the separator is taken where a word stands behind it. -/
theorem Reads.worded_alternatives {test : Test} {kind : NodeKind} {ts : List Token} {r : Reading}
    (h : Reads (.whileDo (.both test (.second .ident)) (.take ++ .single kind)) ts r) :
    Worded kind r.trees := by
  generalize hrule : Rule.whileDo (.both test (.second .ident)) (.take ++ .single kind) = rule at h
  induction h with
  | done => exact fun u hu => nomatch hu
  | @again _ _ ts r s htest hbody _ _ ihloop =>
      obtain ⟨rfl, rfl⟩ := Rule.whileDo.inj hrule
      refine .append ?_ (ihloop hrule)
      cases hbody with
      | seq hfirst hsecond =>
      refine (hfirst.worded_of_yields List.not_mem_nil).append (hsecond.worded_single ?_)
      cases hfirst
      obtain ⟨word, hword, hident⟩ := holds_kind_iff.mp (Bool.and_eq_true _ _ ▸ htest).2
      obtain ⟨first, hfirst⟩ : ∃ t, ahead? ts 0 = some t := by
        rw [ahead?_eq] at hword ⊢
        have hlength := (List.getElem?_eq_some_iff.mp hword).1
        exact ⟨_, List.getElem?_eq_getElem (by omega)⟩
      exact sight_word ((take_ahead hfirst).2.trans hword) hident
  | _ => exact nomatch hrule

/-- Where all nodes of a kind are read by one rule, so is each. -/
theorem rule_of_bodies {kind : NodeKind} {rule only : Rule} {seen : List Sight} {n : Nat}
    (hall : (bodies kind).map (fun b => Rule.node kind b.rule) = List.replicate n (.node kind only))
    (hb : ⟨rule, seen⟩ ∈ bodies kind) : rule = only :=
  (Rule.node.inj (List.eq_of_mem_replicate (hall ▸ List.mem_map_of_mem hb))).2

/-- Services and aggregates read lists of events by one rule. -/
theorem bodies_events : (bodies .withEvents).map (fun b => Rule.ifThen (.nextWord "withEvents")
      (.node .withEvents b.rule) .nothing) = List.replicate (bodies .withEvents).length withEvents ∧
    (bodies .eventGroup).map (fun b => Rule.node .eventGroup b.rule) =
      List.replicate (bodies .eventGroup).length eventGroup := ⟨rfl, rfl⟩

/-- **The alternatives of a group are one word each.** -/
theorem worded_eventGroup {source : String} {children : List Tree}
    (hpart : (Tree.node .eventGroup children).Part (parse source).tree) :
    Worded .eventRef children := by
  obtain ⟨⟨rule, seen⟩, hb, ts, r, -, hreads, rfl, -⟩ := origin_parse hpart nofun
  obtain rfl := rule_of_bodies bodies_events.2 hb
  cases hreads with
  | seq hlist hclosing =>
  cases hlist with
  | seq hopening hlist =>
  refine ((hopening.worded_of_yields (by decide)).append ?_).append
    (hclosing.worded_of_yields (by decide))
  cases hlist with
  | no _ hno => exact hno.worded_of_yields (by decide)
  | yes htest hyes =>
      cases hyes with
      | seq halternatives hseparator =>
      cases halternatives with
      | seq hfirst hmore =>
      obtain ⟨word, hahead, hident⟩ := holds_kind_iff.mp htest
      exact ((hfirst.worded_single (sight_word hahead hident)).append
        hmore.worded_alternatives).append (hseparator.worded_of_yields (by decide))

/-- A list of events holds words, and groups of them. -/
theorem Reads.worded_events {test : Test} {ts : List Token} {r : Reading}
    (h : Reads (.whileDo test (.ifThen (.next .ident) (.single .eventRef) eventGroup)) ts r) :
    Worded .eventRef r.trees := by
  generalize hrule : Rule.whileDo test (.ifThen (.next .ident) (.single .eventRef) eventGroup) =
    rule at h
  induction h with
  | done => exact fun u hu => nomatch hu
  | again _ hbody _ _ ihloop =>
      obtain ⟨rfl, rfl⟩ := Rule.whileDo.inj hrule
      refine .append ?_ (ihloop hrule)
      cases hbody with
      | yes htest hyes =>
          obtain ⟨word, hahead, hident⟩ := holds_kind_iff.mp htest
          exact hyes.worded_single (sight_word hahead hident)
      | no _ hno => exact hno.worded_of_yields (by decide)
  | _ => exact nomatch hrule

/-- **The events that stand alone are one word each.** -/
theorem worded_withEvents {source : String} {children : List Tree}
    (hpart : (Tree.node .withEvents children).Part (parse source).tree) :
    Worded .eventRef children := by
  obtain ⟨⟨rule, seen⟩, hb, ts, r, -, hreads, rfl, -⟩ := origin_parse hpart nofun
  have hrule := List.eq_of_mem_replicate (bodies_events.1 ▸ List.mem_map_of_mem hb)
  obtain ⟨-, hnode, -⟩ := Rule.ifThen.inj hrule
  obtain ⟨-, rfl⟩ := Rule.node.inj hnode
  cases hreads with
  | seq hkeyword hevents =>
  exact (hkeyword.worded_of_yields (by decide)).append hevents.worded_events

/-- **A list of events begins with its keyword**, and that is no event. -/
theorem keyword_withEvents {source : String} {children : List Tree}
    (hpart : (Tree.node .withEvents children).Part (parse source).tree) :
    ∃ keyword rest, children = .leaf keyword :: rest := by
  obtain ⟨⟨rule, seen⟩, hb, ts, r, hseen, hreads, rfl, -⟩ := origin_parse hpart nofun
  have hrule := List.eq_of_mem_replicate (bodies_events.1 ▸ List.mem_map_of_mem hb)
  obtain ⟨-, hnode, -⟩ := Rule.ifThen.inj hrule
  obtain ⟨-, rfl⟩ := Rule.node.inj hnode
  have hending : ∀ b ∈ bodies .withEvents, Sight.ending ∉ b.seen := by decide +kernel
  have hsight : sight (afterTrivia ts) ≠ .ending := by
    rw [sight_afterTrivia]
    intro heq
    exact hending _ hb (heq ▸ hseen)
  obtain ⟨keyword, hahead⟩ := exists_ahead hsight
  cases hreads with
  | seq hkeyword _ =>
  cases hkeyword
  rw [Reading.join, (take_ahead hahead).1, List.map_append]
  cases pendingTrivia (afterTrivia ts) <;> exact ⟨_, _, rfl⟩

end DomainModel.Grammar
