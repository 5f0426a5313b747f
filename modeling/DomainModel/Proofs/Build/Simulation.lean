/-
The walk builds what the recursion says.

A walk is a flat row of steps and knows nothing of the tree but the step at hand; where it
stands in the tree is in the stack of open scopes.  `run_tree` ties the two together.  Its
invariant is `Hosted`: while the children of a node are walked, the scope on top is one of
the kind that such children belong to, with the path and the collection that the recursion
carries down.  Then the steps of a tree end without a fault, leave the stack as it was but
for the scope on top, and have made the changes of `Direct.changes`.

The induction is on the tree.  A construct opens a scope, its children are walked with that
scope on top, and when it is closed the scope holds what `effectOfAll_eq` says.
-/
import DomainModel.Analysis
import DomainModel.Proofs.Build.Kinds
import DomainModel.Proofs.Build.Steps

namespace DomainModel

open Direct

/-! ### Where a node is walked -/

/-- The open scopes are those that the children of a node of this kind belong to. -/
inductive Hosted (within : NodeKind) : Option Home → Scopes → Prop
  | top (h : hosts within = none) : Hosted within none []
  | inner {s rest} (h : hosts within = some s.kind) :
      Hosted within (some ⟨s.path, s.place.collection⟩) (s :: rest)

theorem Hosted.modifyTop {within : NodeKind} {home : Option Home} {stack : Scopes}
    (h : Hosted within home stack) {f : Scope → Scope} (hf : ∀ s, (f s).frame = s.frame) :
    Hosted within home (stack.modifyTop f) := by
  cases h with
  | top h => exact .top h
  | @inner s rest h =>
      obtain ⟨hkind, hpath, hplace⟩ : (f s).kind = s.kind ∧ (f s).path = s.path ∧
          (f s).place = s.place := by
        simpa [Scope.frame] using hf s
      rw [← hpath, ← hplace]
      exact .inner (h.trans (congrArg some hkind.symm))

/-- Under a scope of the kind that a node's children belong to, these are where they belong. -/
theorem Hosted.of_head {within : NodeKind} {stack : Scopes} {s o : Scope}
    (hhosts : hosts within = some o.kind) (hframe : s.frame = o.frame)
    (hhead : stack.head? = some s) : Hosted within (some ⟨o.path, o.place.collection⟩) stack := by
  obtain ⟨hkind, hpath, hplace⟩ : s.kind = o.kind ∧ s.path = o.path ∧ s.place = o.place := by
    simpa [Scope.frame] using hframe
  obtain ⟨rest, rfl⟩ := List.head?_eq_some_iff.mp hhead
  rw [← hpath, ← hplace]
  exact .inner (hhosts.trans (congrArg some hkind.symm))

theorem Hosted.eq_nil {within : NodeKind} {home : Option Home} {stack : Scopes}
    (h : Hosted within home stack) (hhosts : hosts within = none) : stack = [] := by
  cases h with
  | top => rfl
  | inner h => exact nomatch hhosts.symm.trans h

theorem Hosted.congr {within kind : NodeKind} {home : Option Home} {stack : Scopes}
    (h : Hosted within home stack) (hhosts : hosts kind = hosts within) :
    Hosted kind home stack := by
  cases h with
  | top h => exact .top (hhosts.trans h)
  | inner h => exact .inner (hhosts.trans h)

theorem effectOfAll_silent {kind : NodeKind} {ts : List Tree}
    (h : ∀ k ∈ kindsOf ts, Silent kind k) (parent : Option Tree) (s : Scope) :
    effectOfAll parent ts s = s := by
  have hnothing : ∀ k ∈ silentKinds, k ∉ noticed ∧ k ≠ .enumValue := by decide
  induction ts with
  | nil => rfl
  | cons t ts ih =>
      rw [effectOfAll, effect_of_unnoticed fun k hk => hnothing k
        (h k (kindsOf_mem (List.mem_cons_self ..) k hk)).1, ih]
      intro k hk
      refine h k ?_
      rw [← List.singleton_append, kindsOf_append]
      exact List.mem_append_right _ hk

/-- The slots of a construct are empty when it is opened. -/
theorem holding_opening {input : BuildInput} {home : Option Home} {parent : Option Tree}
    {kind : NodeKind} {t : Tree} {o : Opening} (h : opening input home parent kind t = some o) :
    o.scope.holding (slotsOf t kind []) = o.scope := by
  suffices hslots : ∀ e ∈ slotsOf t kind [], Dict.get? o.scope.node e.1 = some e.2 by
    rw [Scope.holding, Dict.extend_of_get? hslots]
  have hmap : ∀ {f : Home → Opening}, home.map f = some o → ∃ owner, f owner = o := fun h => by
    obtain ⟨owner, -, hf⟩ := Option.map_eq_some_iff.mp h
    exact ⟨owner, hf⟩
  cases kind <;> first
    | cases h
    | obtain rfl := Option.some.inj h
    | obtain ⟨owner, rfl⟩ := hmap h
    | skip
  case nestedField =>
    obtain ⟨owner, home, rfl, rfl, rfl⟩ := opening_block h
    exact List.forall_mem_cons.mpr ⟨rfl, List.forall_mem_nil _⟩
  all_goals
    repeat refine List.forall_mem_cons.mpr ⟨rfl, ?_⟩
    exact List.forall_mem_nil _

/-! ### Entering a node -/

/-- What is done to the scope on top before a construct opens its own. -/
def prepared (kind : NodeKind) (t : Tree) (s : Scope) : Scope :=
  match kind with
  | .nestedField => Build.withNestedValidations s t
  | _ => s

/-- A construct opens the scope that the recursion says, where it stands as it should. -/
structure Opens (input : BuildInput) (b : Building) (home : Option Home) (parent : Option Tree)
    (kind : NodeKind) (t : Tree) (o : Opening) : Prop where
  opening : opening input home parent kind t = some o
  enter : b.enter input kind t parent = .ok ((b.after [] (prepared kind t)).opening o)
  slot : o.scope.place.slot = none ∨ b.stack ≠ []
  closes : Building.scopeKind? kind = some o.scope.kind
  hosts : hosts kind = some o.scope.kind
  effect : ∀ s, effect parent t s =
    Building.placing o.scope.place (finished o kind t) (prepared kind t s)

/-- The scope on top has the kind that the place asks for. -/
theorem Hosted.owner {within kind : NodeKind} {home : Option Home} {stack : Scopes}
    (h : Hosted within home stack) (hstands : within ∈ standsIn kind) :
    ∃ s rest, stack = s :: rest ∧ home = some ⟨s.path, s.place.collection⟩ ∧
      some s.kind ∈ (standsIn kind).map hosts := by
  cases h with
  | top h =>
      have hsome : ∀ within ∈ standsIn kind, hosts within ≠ none := by cases kind <;> decide
      exact absurd h (hsome within hstands)
  | @inner s rest h => exact ⟨s, rest, rfl, rfl, List.mem_map.mpr ⟨within, hstands, h⟩⟩

/-- Where the scope on top has the right kind, it is found. -/
theorem owner_eq {s : Scope} {rest : Scopes} {kinds : List ScopeKind} (what : String)
    (h : some s.kind ∈ kinds.map some) : Scopes.owner kinds what (s :: rest) = .ok s := by
  obtain ⟨k, hk, hkind⟩ := List.mem_map.mp h
  obtain rfl := Option.some.inj hkind
  rw [Scopes.owner, if_pos (List.contains_iff_mem.mpr hk)]

theorem enter_scope {input : BuildInput} {b : Building} {home : Option Home}
    {parent : Option Tree} {outer within kind : NodeKind} (children : List Tree)
    (hscope : kind.isScope = true) (hholds : kind ∈ NodeKind.holds outer within)
    (hparent : parent.bind Tree.kind? = some within) (hhosted : Hosted within home b.stack)
    (hoptions : kind = .nestedField → ∀ s ∈ b.stack.head?, ∀ owner ∈ parent,
      s.mapAt "options" = Dict.ofList (notesIn owner.children)) :
    ∃ o, Opens input b home parent kind (.node kind children) o := by
  have hself {r : Except Fault Building} {o : Opening} (h : r = .ok (b.opening o)) :
      r = .ok ((b.after [] fun s => s).opening o) := by
    rw [Building.after_id]
    exact h
  cases kind <;> first
    | exact absurd hscope (by decide)
    | exact ⟨_, rfl, hself rfl, .inl rfl, rfl, rfl, fun _ => rfl⟩
    | skip
  case field | serviceMethod | aggregateCommand =>
    obtain ⟨s, rest, hstack, rfl, hkind⟩ := hhosted.owner (mem_standsIn hholds (by decide))
    refine ⟨_, rfl, hself ?_, .inr (hstack ▸ List.cons_ne_nil _ _), rfl, rfl, fun _ => rfl⟩
    simp only [Building.enter, Building.openField, hstack]
    rw [owner_eq]
    · rfl
    · exact hkind
  case nestedField =>
    have hstands := mem_standsIn hholds (by decide)
    obtain ⟨s, rest, hstack, rfl, hkind⟩ := hhosted.owner hstands
    obtain ⟨owner, rfl, howner⟩ := Option.bind_eq_some_iff.mp hparent
    have hfield : (some owner).filter (Tree.isNode .field) = some owner := by
      rw [Option.filter_some, Tree.isNode, howner, List.mem_singleton.mp hstands]
      rfl
    have htop : b.stack.owner [.field] "nested field" = .ok s := hstack ▸ owner_eq _ hkind
    -- The block takes over the options of its field, which are all noted by now.
    have hmap : s.mapAt "options" = Dict.ofList (notesIn owner.children) :=
      hoptions rfl s (by rw [hstack]; rfl) owner rfl
    have hnested : Build.nestedField input s owner (.node .nestedField children) =
        Build.nestedField input (Home.scope ⟨s.path, s.place.collection⟩
          (Dict.ofList (notesIn owner.children))) owner (.node .nestedField children) := by
      rw [Build.nestedField, hmap]
      rfl
    refine ⟨_, rfl, ?_, .inl rfl, rfl, rfl, fun _ => rfl⟩
    rw [Building.enter, Building.openNested, htop, hfield, ← hnested]
    rfl

/-- What entering a node does, where it does anything at all. -/
def entering (input : BuildInput) (b : Building) (kind : NodeKind) (t : Tree)
    (parent : Option Tree) : Except Fault Building :=
  if kind.isReported then b.enter input kind t parent else .ok b

theorem enter_leaf (input : BuildInput) (b : Building) (home : Option Home)
    (parent : Option Tree) {kind : NodeKind} (children : List Tree) (h : kind ∈ leafKinds) :
    opening input home parent kind (.node kind children) = none ∧
      entering input b kind (.node kind children) parent =
        .ok (b.after (single input parent kind (.node kind children))
          (effect parent (.node kind children))) := by
  have hself : b = b.after [] (fun s => s) := b.after_id.symm
  have htop : b.stack = b.stack.modifyTop (fun s => s) := (Building.modifyTop_id _).symm
  have hstored (c : Collection) (entry : String × Value) :
      Except.ok (ε := Fault) (b.storeEntry c entry) = .ok (b.after (entered c entry) fun s => s) :=
    congrArg _ (Building.storeEntry_eq b c entry)
  cases kind <;> first
    | exact absurd h (by decide)
    | exact ⟨rfl, rfl⟩
    | exact ⟨rfl, hstored _ _⟩
    | refine ⟨rfl, ?_⟩
  case globalJavadoc =>
    show Building.enter input b .globalJavadoc _ parent = _
    rw [Building.enter, single]
    cases (Tree.node .globalJavadoc children).word? with
    | none => exact congrArg _ hself
    | some comment => exact congrArg (fun stack => Except.ok (Building.mk _ _ stack)) htop
  case importStatement =>
    show Building.enter input b .importStatement _ parent = _
    rw [Building.enter, single]
    cases (Tree.node .importStatement children).literal? with
    | none => exact congrArg _ hself
    | some literal => exact congrArg (fun stack => Except.ok (Building.mk _ _ stack)) htop
  case annotationNode =>
    show Except.ok (b.annotate (.node .annotationNode children)) =
      .ok (b.after [] fun s => s.annotated (.node .annotationNode children))
    rw [Building.annotate, funext fun s => Scope.annotated.eq_def s _]
    cases (Tree.node .annotationNode children).identifier? with
    | none => exact congrArg _ hself
    | some name => rfl

theorem enter_through (input : BuildInput) (b : Building) (home : Option Home)
    (parent : Option Tree) {kind : NodeKind} (children : List Tree) (h : kind ∈ throughKinds) :
    opening input home parent kind (.node kind children) = none ∧
      entering input b kind (.node kind children) parent =
        .ok (b.after (single input parent kind (.node kind children)) fun s => s) := by
  have hself : b = b.after [] (fun s => s) := b.after_id.symm
  have htop : b.stack = b.stack.modifyTop (fun s => s) := (Building.modifyTop_id _).symm
  cases kind <;> first
    | exact absurd h (by decide)
    | exact ⟨rfl, congrArg _ hself⟩
    | exact ⟨rfl, congrArg (fun stack => Except.ok (Building.mk _ _ stack)) htop⟩

theorem effect_through (parent : Option Tree) {kind : NodeKind} (children : List Tree)
    (h : kind ∈ throughKinds) :
    hosts kind = none ∨
      effect parent (.node kind children) = effectOfAll (some (.node kind children)) children := by
  cases kind <;> first
    | exact absurd h (by decide)
    | exact .inl rfl
    | exact .inr rfl

/-! ### Walking a tree -/

/-- The steps of a tree do what the recursion says. -/
def Follows (input : BuildInput) (home : Option Home) (parent : Option Tree) (b : Building)
    (t : Tree) : Prop :=
  b.run input (t.visitsUnder parent) =
    .ok (b.after (changes input home parent t) (effect parent t))

theorem follows_silent {input : BuildInput} {home : Option Home} {parent : Option Tree}
    {within : NodeKind} {t : Tree} (hshaped : Shaped within t)
    (hsilent : ∀ k ∈ kindsOf [t], Silent within k) (b : Building) :
    Follows input home parent b t := by
  have hnothing : ∀ k ∈ silentKinds, k ∉ noticed ∧ k ≠ .enumValue := by decide
  obtain ⟨hvisits, hchanges⟩ := silent_tree hshaped hsilent input home parent
  have heffect : effect parent t = fun s => s :=
    funext fun s => effect_of_unnoticed fun k hk => hnothing k (hsilent k hk).1
  rw [Follows, hvisits, hchanges, heffect, Building.after_id]
  rfl

/-- A node that opens no scope: it does its own, then its children do theirs. -/
theorem follows_plain {input : BuildInput} {home : Option Home} {parent : Option Tree}
    {kind : NodeKind} {children : List Tree} {b : Building} {f : Scope → Scope}
    (hscope : kind.isScope = false)
    (hopening : opening input home parent kind (.node kind children) = none)
    (henter : entering input b kind (.node kind children) parent =
      .ok (b.after (single input parent kind (.node kind children)) f))
    (hchildren : ∀ front u back, children = front ++ u :: back → ∀ b' : Building,
      b'.stack = (b.stack.modifyTop f).modifyTop
        (effectOfAll (some (.node kind children)) front) →
      Follows input home (some (.node kind children)) b' u)
    (heffect : ∀ cs, b.after cs (fun s => effectOfAll (some (.node kind children)) children (f s)) =
      b.after cs (effect parent (.node kind children))) :
    Follows input home parent b (.node kind children) := by
  have hchanges : changes input home parent (.node kind children) =
      single input parent kind (.node kind children) ++
        changesOfAll input home (some (.node kind children)) children := by
    rw [changes]
    simp only [hopening]
  rw [Follows, Building.run_plain hscope henter (Building.run_all hchildren), hchanges, heffect]

theorem follows_leaf {input : BuildInput} {home : Option Home} {parent : Option Tree}
    {within kind : NodeKind} {children : List Tree} (hleaf : kind ∈ leafKinds)
    (hshaped : Shaped within (.node kind children)) (b : Building) :
    Follows input home parent b (.node kind children) := by
  obtain ⟨hopening, henter⟩ := enter_leaf input b home parent children hleaf
  have hscope : kind.isScope = false := by
    revert hleaf
    cases kind <;> decide
  cases hshaped with
  | node hholds _ _ hparts =>
  have hsilent : ∀ k ∈ kindsOf children, Silent kind k := fun k hk =>
    silent_of_leaf hleaf k (hholds k hk)
  refine follows_plain hscope hopening henter ?_ ?_
  · intro front u back hsplit b' _
    have hu : u ∈ children := by simp [hsplit]
    exact follows_silent (hparts u hu) (fun k hk => hsilent k (kindsOf_mem hu k hk)) b'
  · intro cs
    rw [funext fun s => effectOfAll_silent hsilent _ _]

theorem follows_through {input : BuildInput} {home : Option Home} {parent : Option Tree}
    {kind : NodeKind} {children : List Tree} (hthrough : kind ∈ throughKinds) {b : Building}
    (hempty : hosts kind = none → b.stack = [])
    (hchildren : ∀ front u back, children = front ++ u :: back → ∀ b' : Building,
      b'.stack = b.stack.modifyTop (effectOfAll (some (.node kind children)) front) →
      Follows input home (some (.node kind children)) b' u) :
    Follows input home parent b (.node kind children) := by
  obtain ⟨hopening, henter⟩ := enter_through input b home parent children hthrough
  have hscope : kind.isScope = false := by
    revert hthrough
    cases kind <;> decide
  refine follows_plain hscope hopening henter ?_ ?_
  · intro front u back hsplit b' hb'
    exact hchildren front u back hsplit b' (hb'.trans (Building.modifyTop_modifyTop _ _ _))
  · intro cs
    rcases effect_through parent children hthrough with hhosts | heffect
    · exact Building.after_of_empty (hempty hhosts) _ _ _
    · rw [heffect]

theorem follows_scope {input : BuildInput} {home : Option Home} {parent : Option Tree}
    {within kind : NodeKind} {children : List Tree} {b : Building} {o : Opening}
    (hscope : kind.isScope = true) (hshaped : Shaped within (.node kind children))
    (hopens : Opens input b home parent kind (.node kind children) o)
    (hchildren : ∀ front u back, children = front ++ u :: back → ∀ b' : Building,
      b'.stack.head? = some (effectOfAll (some (.node kind children)) front o.scope) →
      Follows input (some ⟨o.scope.path, o.scope.place.collection⟩) (some (.node kind children))
        b' u) :
    Follows input home parent b (.node kind children) := by
  have hreported : kind.isReported = true := by
    revert hscope
    cases kind <;> decide
  cases hshaped with
  | node hholds _ _ hparts =>
  -- When the scope is closed, it holds the node of the recursion.
  have hscopeEnd : effectOfAll (some (.node kind children)) children o.scope =
      o.scope.holding (slots kind (.node kind children)) := by
    have hslots := effectOfAll_eq (.node kind children) hscope hholds hparts o.scope
    rwa [holding_opening hopens.opening] at hslots
  have hrun := Building.run_scope hreported hscope hopens.enter hopens.closes hopens.slot
    (fun b' hb' => Building.run_all fun front u back hsplit b'' hb'' =>
      hchildren front u back hsplit b'' (by rw [hb'', Building.head?_modifyTop, hb']; rfl))
    (frame_effectOfAll _ children o.scope)
  have hchanges : changes input home parent (.node kind children) =
      .recorded o.records :: reservation o.scope.place ++
        changesOfAll input (some ⟨o.scope.path, o.scope.place.collection⟩)
          (some (.node kind children)) children ++
        storage o.scope.place (finished o kind (.node kind children)) := by
    rw [changes]
    simp only [hopens.opening]
  rw [Follows, hrun, hscopeEnd, hchanges, funext hopens.effect]
  rfl

theorem notesIn_of_others {ts : List Tree} (h : ∀ k ∈ kindsOf ts, k ≠ .annotationNode) :
    notesIn ts = [] := by
  have hnone : ts.filter (Tree.isNode .annotationNode) = [] := by
    refine List.filter_eq_nil_iff.mpr fun t ht hnode => ?_
    exact h _ (List.mem_filterMap.mpr ⟨t, ht, beq_iff_eq.mp hnode⟩) rfl
  rw [notesIn, hnone]
  rfl

/-- The options that a field has noted when its block is reached are all it has. -/
theorem notesIn_front {front back : List Tree} {block : Tree}
    (hblock : block.isNode .nestedField = true)
    (hturn : (kindsOf (front ++ block :: back)).Pairwise
      fun a b => NodeKind.field.clashes a b = false) :
    notesIn (front ++ block :: back) = notesIn front := by
  have hkind : kindsOf (block :: back) = .nestedField :: kindsOf back := by
    rw [kindsOf, List.filterMap_cons_some (beq_iff_eq.mp hblock)]
    rfl
  rw [kindsOf_append, hkind, List.pairwise_append, List.pairwise_cons] at hturn
  have hnone : notesIn (block :: back) = [] := by
    refine notesIn_of_others ?_
    rw [hkind, List.forall_mem_cons]
    refine ⟨by decide, fun k hk heq => ?_⟩
    exact absurd (hturn.2.1.1 k hk) (by rw [heq]; decide)
  rw [notesIn_append, hnone, List.append_nil]

theorem mapAt_holding (s : Scope) {slots : Members} {key : String} {m : Members}
    (hnodup : (Dict.keys slots).Nodup) (hget : Dict.get? slots key = some (.map m)) :
    (s.holding slots).mapAt key = m := by
  rw [Scope.mapAt, Scope.holding, Dict.get?_extend_of_nodup hnodup, hget]
  rfl

/-- **A walk builds what the recursion says**, from any state whose scope on top is one that
the tree belongs to. -/
theorem run_tree {input : BuildInput} (t : Tree) :
    ∀ {outer within : NodeKind} {home : Option Home} {parent : Option Tree} {b : Building},
      Shaped within t → (∀ k ∈ kindsOf [t], k ∈ NodeKind.holds outer within) →
      parent.bind Tree.kind? = some within → Hosted within home b.stack →
      (t.isNode .nestedField = true → ∀ s ∈ b.stack.head?, ∀ owner ∈ parent,
        s.mapAt "options" = Dict.ofList (notesIn owner.children)) →
      Follows input home parent b t := by
  induction t using Tree.induct with
  | leaf => exact fun {_ _ _ _ b} _ _ _ _ _ => congrArg Except.ok b.after_id.symm
  | node kind children ih =>
      intro outer within home parent b hshaped hkinds hparent hhosted hoptions
      have hholds := hkinds kind (List.mem_cons_self ..)
      have hone : kindsOf [.node kind children] = [kind] := rfl
      by_cases hsilent : Silent within kind
      · refine follows_silent hshaped ?_ b
        rw [hone]
        exact fun k hk => List.mem_singleton.mp hk ▸ hsilent
      obtain ⟨hinside, hturn, hparts⟩ : (∀ k ∈ kindsOf children, k ∈ NodeKind.holds within kind) ∧
          ((kindsOf children).Pairwise fun a b => kind.clashes a b = false) ∧
            ∀ u ∈ children, Shaped kind u := by
        cases hshaped with
        | node hinside hturn _ hparts => exact ⟨hinside, hturn, hparts⟩
      -- A block of fields stands in a field.
      have hfield : ∀ u ∈ children, u.isNode .nestedField = true → kind = .field := by
        intro u hu hnested
        have hmem : NodeKind.nestedField ∈ kindsOf children :=
          List.mem_filterMap.mpr ⟨u, hu, beq_iff_eq.mp hnested⟩
        exact List.mem_singleton.mp (mem_standsIn (hinside _ hmem) (by decide))
      rcases kind_cases hsilent with hscope | hleaf | hthrough | rfl
      · obtain ⟨o, hopens⟩ := enter_scope children hscope hholds hparent hhosted
          fun hnested => hoptions (by rw [hnested]; rfl)
        refine follows_scope hscope hshaped hopens ?_
        intro front u back hsplit b' hb'
        have hu : u ∈ children := by simp [hsplit]
        refine ih u hu (hparts u hu) (fun k hk => hinside k (kindsOf_mem hu k hk)) rfl ?_ ?_
        · exact .of_head hopens.hosts (frame_effectOfAll _ front o.scope) hb'
        · intro hnested s hs owner howner
          obtain rfl := hfield u hu hnested
          obtain rfl := Option.some.inj howner
          obtain rfl := Option.some.inj (hb'.symm.trans hs)
          have hkinds : ∀ k ∈ kindsOf front, k ∈ NodeKind.holds within .field := fun k hk =>
            hinside k (by rw [hsplit, kindsOf_append]; exact List.mem_append_left _ hk)
          have hfront := effectOfAll_eq (.node .field children) hscope hkinds
            (fun t ht => hparts t (by rw [hsplit]; exact List.mem_append_left _ ht)) o.scope
          rw [holding_opening hopens.opening] at hfront
          rw [hfront, mapAt_holding _ (nodup_slotsOf ..) rfl, Tree.children]
          rw [hsplit] at hturn ⊢
          rw [notesIn_front hnested hturn]
      · exact follows_leaf hleaf hshaped b
      · have hhosts := hosts_through hholds hthrough hsilent
        refine follows_through hthrough ?_ ?_
        · exact fun hnone => hhosted.eq_nil (hhosts ▸ hnone)
        · intro front u back hsplit b' hb'
          have hu : u ∈ children := by simp [hsplit]
          refine ih u hu (hparts u hu) (fun k hk => hinside k (kindsOf_mem hu k hk)) rfl ?_ ?_
          · rw [hb']
            exact (hhosted.congr hhosts).modifyTop fun s => frame_effectOfAll _ front s
          · intro hnested
            exact absurd (hfield u hu hnested ▸ hthrough) (by decide)
      · exact absurd rfl (ne_sourceFile hholds)

/-- **A walk over a whole tree** finds every scope it asks for and closes all it opens. -/
theorem follows_source {children : List Tree} (input : BuildInput)
    (hshaped : Shaped .sourceFile (.node .sourceFile children)) :
    Follows input none none {} (.node .sourceFile children) := by
  cases hshaped with
  | node hinside _ _ hparts =>
  refine follows_plain (f := fun s => s) rfl rfl rfl ?_ ?_
  · intro front u back hsplit b' hb'
    have hu : u ∈ children := by simp [hsplit]
    have hempty : b'.stack = [] := hb'
    refine run_tree u (hparts u hu) (fun k hk => hinside k (kindsOf_mem hu k hk)) rfl ?_ ?_
    · rw [hempty]
      exact .top rfl
    · exact fun _ s hs => nomatch hempty ▸ hs
  · exact fun cs => Building.after_of_empty rfl _ _ _

/-- The root of a tree is a node of its own kind. -/
theorem parse_tree (source : String) :
    ∃ children, (parse source).tree = .node .sourceFile children :=
  ⟨_, rfl⟩

theorem run_parse (input : BuildInput) (source : String) :
    Building.run input {} (parse source).tree.visits =
      .ok ⟨(draft input (parse source).tree).document,
        (draft input (parse source).tree).locations, []⟩ := by
  obtain ⟨children, htree⟩ := parse_tree source
  have hfollows := follows_source input (htree ▸ shaped_parse source)
  rw [htree]
  exact hfollows

/-- The model that the recursion makes of a text. -/
def Direct.model (naming : Naming) (source : String) : Model where
  document := (draft ⟨naming, source.toList⟩ (parse source).tree).document
  locations := (draft ⟨naming, source.toList⟩ (parse source).tree).locations

/-- **Every text has a model, and it is the one that the recursion reads off its tree.** -/
theorem buildModel_eq (naming : Naming) (source : String) :
    buildModel naming source = .ok (Direct.model naming source) := by
  have hrun := run_parse ⟨naming, source.toList⟩ source
  rw [Building.run] at hrun
  rw [buildModel, Model.ofTree, hrun]
  rfl

/-- Every text can be analyzed. -/
theorem analyze_eq (options : Options) (naming : Naming) (source : String) :
    analyze options naming source =
      .ok ⟨(Direct.model naming source).classify.validate options,
        (parse source).errors source⟩ := by
  rw [analyze, buildModel_eq]
  rfl

end DomainModel
