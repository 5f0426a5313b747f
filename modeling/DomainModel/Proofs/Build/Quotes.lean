/-
Values stand where their paths lead.

A value that a document takes from a word of the text stands in the part that is recorded for
its path.  Of a kept construct and of the last member of a name the index holds what they
recorded themselves, so for a path below one of them it is enough to find the word in a part
and the part in its own records (`quotes_kept`, `quotes_member`).
-/
import DomainModel.Proofs.Build.Coherence
import DomainModel.Proofs.Build.Schema
import DomainModel.Proofs.Token.Cut

namespace DomainModel

open Direct
open DomainModel.Path (Under steps)
open Grammar (leavesOfAll_leaf needs needed proper typeForm)

/-! ### Parts and their words -/

/-- In a stretch of a text stands a value.  The type of an array of bytes is one value but
three tokens, and there may be blanks and comments between them. -/
def Quoted (source : String) (r : Range) (value : String) : Prop :=
  value.toList <:+: Source.textIn source.toList r ∨
    value = "byte[]" ∧ ∃ ts, ts <:+: scan source ∧
      Source.textIn source.toList r = charsOf ts ∧ charsOf (proper ts) = value.toList

/-- A path leads to a stretch of the text in which a value stands. -/
def Model.Quotes (m : Model) (source path value : String) : Prop :=
  ∃ span, m.location? path = some span ∧ Quoted source span.range value

/-- In a part of a text stands a value. -/
structure Bears (source : String) (part : Tree) (value : String) : Prop where
  piece : Piece source part
  word : ∃ token, token ∈ part.leaves
  quoted : ∀ r, part.range? = some r → Quoted source r value

section
variable {source value : String} {part : Tree}

theorem textIn_of_part (h : Piece source part) {r : Range} (hr : part.range? = some r) :
    Source.textIn source.toList r = charsOf part.leaves := by
  rw [← Tree.text_toList, ← text_of_range h hr, String.toList_ofList]

/-- A part bears its words. -/
theorem bears_token (h : Piece source part) {token : Token} (htoken : token ∈ part.leaves) :
    Bears source part token.text := by
  refine ⟨h, ⟨token, htoken⟩, fun r hr => .inl ?_⟩
  obtain ⟨before, after, hsplit⟩ := List.append_of_mem htoken
  rw [textIn_of_part h hr, hsplit, charsOf_append, charsOf_cons, ← List.append_assoc]
  exact List.infix_append ..

/-- A part that is one identifier bears its word. -/
theorem bears_word {within kind : NodeKind} (h : Piece source part) (hshaped : Shaped within part)
    (hkind : part.kind? = some kind) (hword : kind ∈ NodeKind.words) :
    ∃ name, part.word? = some name ∧ Bears source part name := by
  obtain ⟨token, rfl, hident⟩ := hshaped.word hkind hword
  exact ⟨_, Tree.word?_word hident, bears_token h (List.mem_singleton_self _)⟩

/-- A child that is one identifier bears its word. -/
theorem bears_child {within kind : NodeKind} {t : Tree} (h : Piece source t)
    (hshaped : Shaped within t) (hword : kind ∈ NodeKind.words)
    (hchild : t.child? kind = some part) :
    ∃ name, t.childWord? kind = some name ∧ Bears source part name := by
  obtain ⟨hmem, hkind⟩ := Tree.child?_spec hchild
  obtain ⟨_, hpart⟩ := hshaped.child hmem
  obtain ⟨name, hname, hbears⟩ := bears_word (h.child hmem) hpart hkind hword
  refine ⟨name, ?_, hbears⟩
  rw [Tree.childWord?, hchild]
  exact hname

/-- Where a path leads to a part, it leads to what the part bears. -/
theorem Bears.quotes (naming : Naming) (h : Bears source part value) {m : Model} {path : String}
    (hlocation : ∀ span, BuildInput.locate ⟨naming, source.toList⟩ (some part) = some span →
      m.location? path = some span) : m.Quotes source path value := by
  obtain ⟨token, htoken⟩ := h.word
  obtain ⟨r, hr⟩ := Tree.range?_of_mem htoken
  refine ⟨Source.span source.toList r, hlocation _ ?_, h.quoted r hr⟩
  rw [BuildInput.locate, Option.bind_some, hr]
  rfl

end

/-! ### Types of fields -/

/-- But for what is between them, the tokens of a type with brackets are three. -/
theorem proper_brackets {name opening closing : Token} {gap gap' : List Token}
    (hgap : ∀ t ∈ gap ++ gap', t.isTrivia = true) (hname : name.kind = .ident)
    (hopening : opening.kind = .lBracket) (hclosing : closing.kind = .rBracket) :
    proper (name :: gap ++ opening :: gap' ++ [closing]) = [name, opening, closing] := by
  have hsilent : ∀ ts : List Token, (∀ t ∈ ts, t.isTrivia = true) →
      ts.filter (fun t => !t.isTrivia) = [] := by
    intro ts hts
    refine List.filter_eq_nil_iff.mpr fun t ht => ?_
    simp [hts t ht]
  obtain ⟨hfront, hback⟩ := List.forall_mem_append.mp hgap
  have hname : name.isTrivia = false := by rw [Token.isTrivia, hname]; rfl
  have hopening : opening.isTrivia = false := by rw [Token.isTrivia, hopening]; rfl
  have hclosing : closing.isTrivia = false := by rw [Token.isTrivia, hclosing]; rfl
  simp [proper, hname, hopening, hclosing, hsilent gap hfront, hsilent gap' hback]

/-- **The type of a field stands in the part for it.** -/
theorem bears_type {source : String} (hnone : (parse source).complaints = []) {children : List Tree}
    (hpart : Piece source (.node .field children)) :
    ∃ part name, (Tree.node .field children).child? .fieldType = some part ∧
      (Build.fieldTypeOf (.node .field children)).1 = some name ∧ Bears source part name := by
  obtain ⟨part, hchild⟩ := needed hnone hpart rfl (by decide : NodeKind.fieldType ∈ needs .field)
  obtain ⟨hmem, hkind⟩ := Tree.child?_spec hchild
  obtain ⟨parts, rfl⟩ := Tree.exists_node hkind
  have hpiece := hpart.child hmem
  obtain ⟨name, hident, hform⟩ := typeForm hpiece
  have hidentifier := hform.identifier? hident .fieldType
  have hword : name ∈ (Tree.node .fieldType parts).leaves := by
    refine Tree.mem_leaves ?_
    show Tree.leaf name ∈ parts
    cases hform <;> simp
  by_cases hbytes : (Tree.node .fieldType parts).hasBrackets = true ∧ name.text = "byte"
  · refine ⟨_, "byte[]", hchild, ?_, hpiece, ⟨name, hword⟩, fun r hr => .inr ⟨rfl, ?_⟩⟩
    · rw [Build.fieldTypeOf, hchild]
      simp [hidentifier, hbytes]
    · obtain ⟨before, after, hsplit⟩ := hpiece.leaves_split
      rw [leaves_parse] at hsplit
      refine ⟨_, ⟨before, after, hsplit.symm⟩, textIn_of_part hpiece hr, ?_⟩
      cases hform with
      | plain =>
          rw [Tree.hasBrackets_word hident] at hbytes
          exact nomatch hbytes.1
      | @array gap gap' opening closing hgap hopening hclosing =>
          have hleaves : (Tree.node .fieldType
              ((name :: gap ++ opening :: gap' ++ [closing]).map .leaf)).leaves =
              name :: gap ++ opening :: gap' ++ [closing] := leavesOfAll_leaf _
          rw [hleaves] at hsplit ⊢
          have hscan : opening ∈ scan source ∧ closing ∈ scan source := by
            rw [hsplit]
            simp
          rw [proper_brackets hgap hident hopening hclosing, charsOf_cons, charsOf_cons,
            charsOf_cons, hbytes.2, (scan_spelled hscan.1).opening hopening,
            (scan_spelled hscan.2).closing hclosing]
          rfl
  · refine ⟨_, name.text, hchild, ?_, bears_token hpiece hword⟩
    rw [Build.fieldTypeOf, hchild]
    simp [hidentifier, hbytes]

/-! ### Constructs without constructs of their collection -/

/-- The kinds of nodes that stand in a construct with a path. -/
def NodeKind.isInner : NodeKind → Bool
  | .sourceFile | .globalJavadoc | .legacyConstant | .importStatement | .config | .configOption
  | .apiList | .api | .pluginList | .plugin | .policies | .policy | .entity | .input | .output
  | .event | .enumeration | .relationshipGroup | .relationship | .service | .legacyService
  | .aggregate => false
  | _ => true

theorem isInner_holds {within kind k : NodeKind} (hk : k ∈ NodeKind.holds within kind)
    (h : kind.isInner = true ∨ ∃ c ∈ Collection.located, collectionOf none kind = some c) :
    k.isInner = true := by
  have hall : ∀ k ∈ NodeKind.holds .sourceFile kind, k.isInner = true := by
    revert h
    cases kind <;> decide
  exact hall k (NodeKind.holds_subset hk)

/-- Inside a construct with a path nothing is stored but blocks of fields. -/
theorem block_of_inner (t : Tree) : ∀ {within : NodeKind} {inside : Option Collection}
    {parent : Option Tree}, Shaped within t → (∀ k ∈ kindsOf [t], k.isInner = true) →
    ∀ s ∈ sitesAfter inside parent t, s.kind = .nestedField := by
  induction t using Tree.induct with
  | leaf => exact fun _ _ _ hs => nomatch hs
  | node kind children ih =>
      intro within inside parent hshaped hinner s hs
      have hkind := hinner kind (List.mem_cons_self ..)
      rw [sitesAfter, List.mem_append, sitesAfterAll_eq, List.mem_flatMap] at hs
      cases hshaped with
      | node hholds _ _ hparts =>
      rcases hs with ⟨u, hu, hs⟩ | hs
      · exact ih u hu (hparts u hu)
          (fun k hk => isInner_holds (hholds k (kindsOf_mem hu k hk)) (.inl hkind)) s hs
      · obtain ⟨c, hc, rfl⟩ := List.mem_map.mp hs
        rw [Option.mem_toList] at hc
        have hblock : kind = .nestedField ∨ collectionOf inside kind = none := by
          revert hkind
          cases kind <;> first
            | exact fun _ => .inl rfl
            | exact fun _ => .inr rfl
            | exact fun h => absurd h (by decide)
        exact hblock.resolve_right fun hnone => Option.some_ne_none c (hc.symm.trans hnone)

section
variable {source : String} {c : Collection} {name : String} {s : Site}

theorem kind_of_kept (hc : c ∉ Collection.withFields)
    (h : kept? c name (parse source).tree = some s) :
    s.kind ≠ .nestedField ∧ collectionOf none s.kind = some c := by
  obtain ⟨hcollection, -⟩ := kept?_eq_some h
  obtain ⟨inside, hplace⟩ := (proper_of_mem (shaped_parse source) (kept?_mem h)).place
  have hblock : s.kind ≠ .nestedField := fun hkind =>
    hc (hcollection ▸ block_stored (shaped_parse source) rfl s (kept?_mem h) hkind)
  refine ⟨hblock, hcollection ▸ hplace ▸ ?_⟩
  cases hkind : s.kind <;> first
    | rfl
    | exact absurd hkind hblock

/-- Only declarations with fields contain constructs of their own collection. -/
theorem not_recurs (hc : c ∈ Collection.located) (hfields : c ∉ Collection.withFields)
    (h : kept? c name (parse source).tree = some s) : ¬s.Recurs := by
  obtain ⟨hcollection, -⟩ := kept?_eq_some h
  obtain ⟨-, hplace⟩ := kind_of_kept hfields h
  obtain ⟨hkind, ⟨within, hshaped⟩, -, -⟩ := proper_of_mem (shaped_parse source) (kept?_mem h)
  obtain ⟨children, hnode⟩ := Tree.exists_node hkind
  rw [hnode] at hshaped
  cases hshaped with
  | node hholds _ _ hparts =>
  rintro ⟨s', hs', hsame, -⟩
  have hmem := inner_subset _ s (kept?_mem h) hs'
  rw [Direct.Site.inner, hnode, sitesAfterAll_eq, List.mem_flatMap] at hs'
  obtain ⟨u, hu, hs'⟩ := hs'
  have hblock : s'.kind = .nestedField := by
    refine block_of_inner u (hparts u hu) (fun k hk => ?_) s' hs'
    exact isInner_holds (hholds k (kindsOf_mem hu k hk)) (.inr ⟨c, hc, hplace⟩)
  have hstored := block_stored (shaped_parse source) rfl s' hmem hblock
  rw [hsame, hcollection] at hstored
  exact hfields hstored

end

/-! ### Paths of constructs and of their members -/

/-- A construct that is kept under a name and contains none of that name. -/
structure Direct.Settled (source : String) (c : Collection) (name : String) (s : Site) : Prop where
  located : c ∈ Collection.located
  kept : kept? c name (parse source).tree = some s
  single : ¬s.Recurs

/-- The last member of its name in such a construct. -/
structure Direct.SettledMember (source : String) (c : Collection) (name : String) (s : Site)
    (m : MemberSlot) (u : Tree) : Prop extends Settled source c name s where
  slot : m ∈ memberSlots s.node s.kind
  last : ∃ front back, members s.node s.kind m = front ++ u :: back ∧
    ∀ v ∈ back, v.nameOrEmpty ≠ u.nameOrEmpty

/-- The path of a member is made of the steps that lead to it. -/
theorem path_member {input : BuildInput} {c : Collection} {name : String} {parent : Option Tree}
    {t u : Tree} {kind : NodeKind} {m : MemberSlot} (hm : m ∈ memberSlots t kind)
    (hkind : m.kind ∈ memberKinds) {o : Opening}
    (ho : opening input (some ⟨c.key ++ "." ++ name, c⟩) parent m.kind u = some o) :
    o.scope.path = ".".intercalate [c.key, name, m.slot, u.nameOrEmpty] := by
  rw [(path_of_member hm hkind ho).1]
  simp [String.intercalate_cons_cons, String.append_assoc]

section
variable {naming : Naming} {source value tail : String} {c : Collection} {name : String} {s : Site}
  {part : Tree}

theorem Direct.Settled.piece (h : Settled source c name s) : Piece source s.node :=
  (site_part _ s (kept?_mem h.kept)).1

theorem Direct.SettledMember.mem {m : MemberSlot} {u : Tree}
    (h : SettledMember source c name s m u) : u ∈ members s.node s.kind m := by
  obtain ⟨front, back, hmembers, -⟩ := h.last
  rw [hmembers]
  simp

/-- What a kept construct records one step below its path is what stands there. -/
theorem quotes_kept (h : Settled source c name s) (htail : Dotless tail)
    (hbears : Bears source part value)
    (hrecords : ∀ home o, opening ⟨naming, source.toList⟩ home s.parent s.kind s.node = some o →
      ∀ span, BuildInput.locate ⟨naming, source.toList⟩ (some part) = some span →
        Records.span? o.records (o.scope.path ++ "." ++ tail) = some span) :
    (Direct.model naming source).Quotes source (".".intercalate [c.key, name, tail]) value := by
  obtain ⟨children, home, o, hstands, hcounts⟩ := location?_kept naming h.located h.kept h.single
  have hpath : ".".intercalate [c.key, name, tail] = o.scope.path ++ "." ++ tail := by
    rw [hstands.path]
    simp [String.intercalate_cons_cons, String.append_assoc]
  have hsteps : steps (o.scope.path ++ "." ++ tail) = [c.key, name, tail] := by
    rw [Path.steps_below (by rw [hstands.path]; simp) htail, hstands.path,
      Path.steps_key c (dotless_kept h.kept)]
    rfl
  rw [hpath]
  refine hbears.quotes naming fun span hspan => ?_
  refine hcounts _ span ?_ ?_ (hrecords home o hstands.opening span hspan)
  · rw [Under, hsteps]
    exact List.prefix_append [c.key, name] [tail]
  · rw [hsteps]
    exact Nat.le_refl 3

/-- A path below that of the last member of a name leads to what the member records there. -/
theorem location?_below {m : MemberSlot} {u : Tree} (h : SettledMember source c name s m u)
    (hkind : m.kind ∈ memberKinds) (htail : m.kind = .field → Dotless tail) {span : Span}
    (hrecords : ∀ home o, opening ⟨naming, source.toList⟩ (some home) none m.kind u = some o →
      o.scope.path ≠ "" → Records.span? o.records (o.scope.path ++ "." ++ tail) = some span) :
    (Direct.model naming source).location?
      (".".intercalate [c.key, name, m.slot, u.nameOrEmpty] ++ "." ++ tail) = some span := by
  obtain ⟨front, back, hmembers, hlast⟩ := h.last
  obtain ⟨o, -, ho, hsteps, -⟩ :=
    under_member naming h.located h.kept h.single h.slot hkind h.mem
  obtain ⟨hpath, -⟩ := path_of_member h.slot hkind ho
  have hne : o.scope.path ≠ "" := by
    rw [hpath]
    simp
  have hbelow := Path.steps_append hne tail
  rw [hsteps] at hbelow
  rw [← path_member h.slot hkind ho]
  refine location?_member h.located h.kept h.single h.slot hkind hmembers hlast ho ?_
    (fun hfield => ?_) (hrecords _ o ho hne)
  · rw [Under, hbelow]
    exact List.prefix_append ..
  · rw [hbelow, Text.splitOn_of_not_mem (htail hfield)]
    exact Nat.le_refl 5

/-- What the last member of a name records below its path is what stands there. -/
theorem quotes_member {m : MemberSlot} {u : Tree} (h : SettledMember source c name s m u)
    (hkind : m.kind ∈ memberKinds) (htail : m.kind = .field → Dotless tail)
    (hbears : Bears source part value)
    (hrecords : ∀ home o, opening ⟨naming, source.toList⟩ (some home) none m.kind u = some o →
      o.scope.path ≠ "" → ∀ span,
        BuildInput.locate ⟨naming, source.toList⟩ (some part) = some span →
        Records.span? o.records (o.scope.path ++ "." ++ tail) = some span) :
    (Direct.model naming source).Quotes source
      (".".intercalate [c.key, name, m.slot, u.nameOrEmpty] ++ "." ++ tail) value :=
  hbears.quotes naming fun span hspan =>
    location?_below h hkind htail fun home o ho hne => hrecords home o ho hne span hspan

end

end DomainModel
