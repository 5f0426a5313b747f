/-
What kinds of nodes a walk has to do with.

Every kind plays one of four parts.  Some open a scope; some do all they do at once, and
nothing happens inside them; some have nothing of their own, but what stands in them counts
as standing around them; and in the rest nothing is to be found at all.  `kind_cases` says
that there are no more.  With the table of what may stand in what, the part that a kind
plays says what kind of scope is on top when its children are walked (`hosts`).
-/
import DomainModel.Proofs.Build.Direct
import DomainModel.Proofs.Grammar.Shape

namespace DomainModel

open Direct

/-! ### The scope on top -/

/-- The kind of scope on top while the children of a node are walked. -/
def hosts : NodeKind → Option ScopeKind
  | .api => some .api
  | .plugin => some .plugin
  | .entity | .input | .output | .event | .declBody => some .declaration
  | .field => some .field
  | .nestedField => some .nestedField
  | .enumeration | .enumBody => some .enumeration
  | .service => some .service
  | .legacyService => some .legacyService
  | .serviceMethod => some .method
  | .aggregate => some .aggregate
  | .aggregateCommand => some .command
  | _ => none

/-! ### Trees without steps -/

theorem Tree.visitsOfAll_eq (parent : Option Tree) (ts : List Tree) :
    visitsOfAll parent ts = ts.flatMap (visitsUnder parent) := by
  induction ts with
  | nil => rfl
  | cons t ts ih => rw [visitsOfAll, ih, List.flatMap_cons]

/-- Kinds of nodes in which a walk finds nothing to report, junk at the top excepted. -/
def silentKinds : List NodeKind :=
  [.suffixJavadoc, .name, .apiType, .apiRole, .pluginDisabled, .pluginOptions, .tableName,
    .fieldType, .initialValue, .validation, .relationshipField, .relationshipDescription,
    .serviceAggregates, .methodParams, .naturalId, .paramId, .methodParameter, .methodReturn,
    .withEvents, .eventRef, .eventGroup, .aggregateRoot, .complexValue, .literal, .object,
    .array, .pair, .arrayPlain, .pairs, .junk]

def Silent (within kind : NodeKind) : Prop :=
  kind ∈ silentKinds ∧ (kind = .junk → within ≠ .sourceFile)

instance (within kind : NodeKind) : Decidable (Silent within kind) :=
  inferInstanceAs (Decidable (_ ∧ _))

theorem silent_inside {within kind : NodeKind} (h : Silent within kind) :
    ∀ k ∈ NodeKind.holds within kind, Silent kind k := by
  obtain ⟨hmem, hjunk⟩ := h
  cases kind <;> first
    | exact absurd hmem (by decide)
    | simp [NodeKind.holds, Silent, silentKinds, hjunk]

theorem silent_kind {within kind : NodeKind} (h : Silent within kind) :
    kind.isReported = false ∧ kind.isScope = false ∧ ∀ input home parent t,
      opening input home parent kind t = none ∧ single input parent kind t = [] := by
  obtain ⟨hmem, -⟩ := h
  cases kind <;> first
    | exact absurd hmem (by decide)
    | exact ⟨rfl, rfl, fun _ _ _ _ => ⟨rfl, rfl⟩⟩

theorem kindsOf_mem {t : Tree} {ts : List Tree} (h : t ∈ ts) : ∀ k ∈ kindsOf [t], k ∈ kindsOf ts := by
  intro k hk
  obtain ⟨u, hu, hkind⟩ := List.mem_filterMap.mp hk
  exact List.mem_filterMap.mpr ⟨t, h, List.mem_singleton.mp hu ▸ hkind⟩

/-- What holds of leaves, and of a silent node when it holds of its children, holds of every
silent tree. -/
theorem silent_induct {P : Tree → Prop} (hleaf : ∀ token, P (.leaf token))
    (hnode : ∀ within kind children, Silent within kind → (∀ t ∈ children, P t) →
      P (.node kind children)) (t : Tree) :
    ∀ within, Shaped within t → (∀ k ∈ kindsOf [t], Silent within k) → P t := by
  induction t using Tree.induct with
  | leaf token => exact fun _ _ _ => hleaf token
  | node kind children ih =>
      intro within hshaped hsilent
      have hkind : Silent within kind := hsilent kind (List.mem_cons_self ..)
      cases hshaped with
      | node hholds _ _ hchildren =>
      exact hnode within kind children hkind fun t ht => ih t ht kind (hchildren t ht)
        fun k hk => silent_inside hkind k (hholds k (kindsOf_mem ht k hk))

/-- A walk has no steps in a silent tree, and the recursion finds nothing in it. -/
theorem silent_tree {within : NodeKind} {t : Tree} (hshaped : Shaped within t)
    (hsilent : ∀ k ∈ kindsOf [t], Silent within k) (input : BuildInput) (home : Option Home)
    (parent : Option Tree) : t.visitsUnder parent = [] ∧ changes input home parent t = [] := by
  refine silent_induct (P := fun t => ∀ home parent,
    t.visitsUnder parent = [] ∧ changes input home parent t = []) (fun _ _ _ => ⟨rfl, rfl⟩) ?_
    t within hshaped hsilent home parent
  intro within kind children hkind hparts home parent
  obtain ⟨hreported, hscope, hnothing⟩ := silent_kind hkind
  obtain ⟨hopening, hsingle⟩ := hnothing input home parent (.node kind children)
  have hvisits := List.flatMap_eq_nil_iff.mpr fun t ht =>
    (hparts t ht home (some (.node kind children))).1
  have hchanges := List.flatMap_eq_nil_iff.mpr fun t ht =>
    (hparts t ht home (some (.node kind children))).2
  refine ⟨?_, ?_⟩
  · rw [Tree.visitsUnder, hreported, hscope, Tree.visitsOfAll_eq, hvisits]
    rfl
  · rw [changes]
    simp only [hopening, hsingle, changesOfAll_eq, hchanges, List.append_nil]

/-! ### Kinds and where they stand -/

/-- Kinds whose nodes do all they do at once. -/
def leafKinds : List NodeKind :=
  [.globalJavadoc, .legacyConstant, .importStatement, .configOption, .apiConfig,
    .pluginConfigOption, .pluginCliOption, .policy, .annotationNode, .enumValue]

/-- Kinds whose nodes leave the scope on top in place for their children. -/
def throughKinds : List NodeKind :=
  [.config, .apiList, .pluginList, .policies, .relationshipGroup, .relationship,
    .relationshipFrom, .relationshipTo, .declBody, .enumBody, .junk]

theorem kind_cases {within kind : NodeKind} (h : ¬Silent within kind) :
    kind.isScope = true ∨ kind ∈ leafKinds ∨ kind ∈ throughKinds ∨ kind = .sourceFile := by
  have hkind : kind = .junk ∨ kind ∉ silentKinds :=
    or_iff_not_imp_left.mpr fun hjunk hmem => h ⟨hmem, fun heq => absurd heq hjunk⟩
  revert hkind
  cases kind <;> decide

theorem ne_sourceFile {outer within kind : NodeKind} (h : kind ∈ NodeKind.holds outer within) :
    kind ≠ .sourceFile := by
  replace h := NodeKind.holds_subset h
  revert kind
  cases within <;> decide

theorem hosts_through {outer within kind : NodeKind} (h : kind ∈ NodeKind.holds outer within)
    (hthrough : kind ∈ throughKinds) (hsilent : ¬Silent within kind) :
    hosts kind = hosts within := by
  replace h := NodeKind.holds_subset h
  revert kind
  cases within <;> decide

/-- The kinds of nodes in which a construct with an owner stands. -/
def standsIn : NodeKind → List NodeKind
  | .field => [.declBody, .nestedField]
  | .nestedField => [.field]
  | .serviceMethod => [.service]
  | .aggregateCommand => [.aggregate]
  | _ => []

theorem mem_standsIn {outer within kind : NodeKind} (h : kind ∈ NodeKind.holds outer within)
    (howned : kind ∈ [NodeKind.field, .nestedField, .serviceMethod, .aggregateCommand]) :
    within ∈ standsIn kind := by
  replace h := NodeKind.holds_subset h
  revert kind
  cases within <;> decide

theorem silent_of_leaf {within kind : NodeKind} (h : kind ∈ leafKinds) :
    ∀ k ∈ NodeKind.holds within kind, Silent kind k := by
  cases kind <;> first
    | exact absurd h (by decide)
    | simp [NodeKind.holds, Silent, silentKinds]

end DomainModel
