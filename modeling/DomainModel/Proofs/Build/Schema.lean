/-
Every document looks as it has to.

What stands in a collection was a construct of the text, and the node of a construct is the
one that it opened with, written over in the slots that its children fill.  Those slots are
there from the beginning, so the row of keys never changes, and none of them is a name.  The
members in a slot come from the children, each under the name that its own node says.
-/
import DomainModel.Proofs.Build.Names
import DomainModel.Proofs.Model.Schema

namespace DomainModel

open Direct

/-! ### Complete nodes -/

/-- What the children of a construct do not fill stays as it was opened. -/
theorem get?_finished_other {o : Opening} {kind : NodeKind} {t : Tree} {key : String}
    (h : Dict.get? (slots kind t) key = none) :
    (finished o kind t).get? key = Dict.get? o.scope.node key := by
  have hnodup : (Dict.keys (slots kind t)).Nodup := nodup_slotsOf t kind t.children
  rw [finished, Value.get?, Value.map?, Option.bind_some, Dict.get?_extend_of_nodup hnodup, h,
    Option.none_or]

/-- What the children of a construct fill is what they make of it. -/
theorem get?_finished_slot {o : Opening} {kind : NodeKind} {t : Tree} {key : String} {v : Value}
    (h : Dict.get? (slots kind t) key = some v) : (finished o kind t).get? key = some v := by
  have hnodup : (Dict.keys (slots kind t)).Nodup := nodup_slotsOf t kind t.children
  rw [finished, Value.get?, Value.map?, Option.bind_some, Dict.get?_extend_of_nodup hnodup, h,
    Option.some_or]

theorem named_finished {o : Opening} {kind : NodeKind} {t : Tree} {name : String}
    (h : Dict.get? (slots kind t) "name" = none)
    (hname : Dict.get? o.scope.node "name" = some (.string name)) :
    Named name (finished o kind t) :=
  ⟨_, rfl, (get?_finished_other h).trans hname⟩

/-- Entries made of children are as the entries of these children are. -/
theorem keeps_entries {P : String → Value → Prop} {v : Value} {slot : String} {kind : NodeKind}
    {entry : Tree → String × Value} {ts : List Tree}
    (hslot : v.get? slot = some (entriesOf kind entry ts))
    (h : ∀ t ∈ ts, t.kind? = some kind → P (entry t).1 (entry t).2) : Keeps P slot v := by
  refine ⟨_, hslot, fun e he => ?_⟩
  obtain ⟨t, ht, rfl⟩ := List.mem_map.mp (Dict.mem_ofList he)
  obtain ⟨hmem, hkind⟩ := List.mem_filter.mp ht
  exact h t hmem (beq_iff_eq.mp hkind)

/-- Entries made of children are as every such entry is. -/
theorem keeps_entriesOf {P : String → Value → Prop} {v : Value} {slot : String} {kind : NodeKind}
    {entry : Tree → String × Value} {ts : List Tree}
    (hslot : v.get? slot = some (entriesOf kind entry ts)) (h : ∀ t, P (entry t).1 (entry t).2) :
    Keeps P slot v :=
  keeps_entries hslot fun t _ _ => h t

/-! ### Members -/

theorem named_validationEntries {ts : List Tree} :
    ∀ e ∈ Build.validationEntries ts, Named e.1 e.2 := by
  intro e he
  obtain ⟨t, -, hentry⟩ := List.mem_filterMap.mp (Dict.mem_ofList he)
  obtain ⟨name, -, rfl⟩ := Option.map_eq_some_iff.mp hentry
  exact ⟨_, rfl, rfl⟩

/-- What a field holds is what its children make of it, or else what it opened with. -/
theorem get?_fieldEntry (t : Tree) (key : String) : (fieldEntry t).2.get? key =
    (Dict.get? (noted t.children ++ checks t t.children) key).or
      (Dict.get? (Build.fieldMembers t) key) :=
  Dict.get?_extend_of_nodup (nodup_slotsOf t .field t.children) key

theorem isField_entry (t : Tree) : IsField (fieldEntry t).1 (fieldEntry t).2 := by
  have hget := get?_fieldEntry t
  refine ⟨⟨_, rfl, (hget "name").trans rfl⟩, ?_, ?_, ?_⟩
  · refine congrArg some (Dict.keys_extend_of_subset ?_)
    show ∀ key ∈ ["options", "optionsList", "validations"], key ∈ keysOfField
    decide
  · rw [hget, hget]
    rfl
  · refine ⟨_, (hget "validations").trans rfl, fun e he => ?_⟩
    rcases Dict.mem_extend he with hown | hbehind
    · exact named_validationEntries e hown
    · obtain ⟨block, -, hblock⟩ := List.mem_flatMap.mp hbehind
      exact named_validationEntries e hblock

/-- Members of a method or a command that its annotations leave as they are. -/
theorem get?_noted {members : Members} {ts : List Tree} {key : String}
    (hoptions : key ≠ "options") (hlist : key ≠ "optionsList") :
    Dict.get? (Dict.extend members (noted ts)) key = Dict.get? members key := by
  have hnodup : (Dict.keys (noted ts)).Nodup :=
    show ["options", "optionsList"].Nodup by decide
  rw [Dict.get?_extend_of_nodup hnodup, noted, Dict.get?_cons, if_neg hoptions, Dict.get?_cons,
    if_neg hlist]
  rfl

theorem isOperation_method (owner t : Tree) :
    IsOperation "serviceName" owner.nameOrEmpty (methodEntry (some owner) t).1
      (methodEntry (some owner) t).2 where
  named := ⟨_, rfl, get?_noted (by decide) (by decide)⟩
  owner := get?_noted (by decide) (by decide)

theorem isOperation_command (owner t : Tree) :
    IsOperation "aggregateName" owner.nameOrEmpty (commandEntry (some owner) t).1
      (commandEntry (some owner) t).2 where
  named := ⟨_, rfl, get?_noted (by decide) (by decide)⟩
  owner := get?_noted (by decide) (by decide)

/-- The methods that nobody wrote are those of their service, too. -/
theorem isOperation_crud {n : Naming} {service : String} {entities : List String}
    {e : String × Value} (he : e ∈ Crud.methods n service entities) :
    IsOperation "serviceName" service e.1 e.2 := by
  obtain ⟨entity, -, hmem⟩ := List.mem_flatMap.mp (Dict.mem_ofList he)
  simp only [Crud.methodsOf, List.mem_cons, List.not_mem_nil, or_false] at hmem
  rcases hmem with rfl | rfl | rfl | rfl | rfl <;> exact ⟨⟨_, rfl, rfl⟩, rfl⟩

/-! ### Constructs -/

/-- A declaration with fields, however it is opened. -/
theorem isDeclaration_finished {o : Opening} {kind : NodeKind} {t : Tree} {n : Naming}
    {name : String} {c : Collection} {javadoc table : Option String} {options : Members}
    (hnode : o.scope.node = Build.declarationMembers n name c javadoc table options)
    (hkeys : Dict.keys (slots kind t) ⊆ ["options", "optionsList", "fields"])
    {ts : List Tree} (hfields : Dict.get? (slots kind t) "fields" =
      some (entriesOf .field fieldEntry ts)) :
    IsDeclaration c name (finished o kind t) := by
  have hother : ∀ key ∉ ["options", "optionsList", "fields"],
      (finished o kind t).get? key = Dict.get? o.scope.node key := fun key hkey =>
    get?_finished_other (Dict.get?_eq_none_iff.mpr fun hmem => hkey (hkeys hmem))
  refine ⟨⟨_, rfl, ?_⟩, ?_, ?_, keeps_entriesOf (get?_finished_slot hfields) isField_entry⟩
  · exact (hother "name" (by decide)).trans (hnode ▸ rfl)
  · refine congrArg some ((Dict.keys_extend_of_subset fun key hkey => ?_).trans (hnode ▸ rfl))
    have hrow : Dict.keys o.scope.node = keysOfDeclaration := hnode ▸ rfl
    have hslots : ∀ key ∈ ["options", "optionsList", "fields"], key ∈ keysOfDeclaration := by
      decide
    exact hrow ▸ hslots key (hkeys hkey)
  · exact (hother "type" (by decide)).trans (hnode ▸ rfl)

/-- Blocks of fields stand only where there are fields. -/
theorem holds_block {outer within kind : NodeKind} (h : kind ∈ NodeKind.holds outer within)
    (hkind : kind ∈ [NodeKind.declBody, .field, .nestedField]) :
    within ∈ NodeKind.declarations ∨ within ∈ [NodeKind.declBody, .field, .nestedField] := by
  replace h := NodeKind.holds_subset h
  revert kind
  cases within <;> decide

/-- A block of fields is stored where its declaration is. -/
theorem collection_of_block (t : Tree) : ∀ {within : NodeKind} {inside : Option Collection}
    {parent : Option Tree}, Shaped within t →
    (∀ kind ∈ kindsOf [t], kind ∈ [NodeKind.declBody, .field, .nestedField] →
      ∃ c ∈ inside, c ∈ Collection.withFields) →
    ∀ s ∈ sitesAfter inside parent t, s.kind = .nestedField → s.collection ∈ Collection.withFields := by
  induction t using Tree.induct with
  | leaf => exact fun _ _ _ hs => nomatch hs
  | node kind children ih =>
      intro within inside parent hshaped hinside s hs hblock
      rw [sitesAfter, List.mem_append, sitesAfterAll_eq, List.mem_flatMap] at hs
      have hhere := hinside kind (List.mem_cons_self ..)
      cases hshaped with
      | node hholds _ _ hparts =>
      rcases hs with ⟨t, ht, hs⟩ | hs
      · refine ih t ht (hparts t ht) (fun k hk hfields => ?_) s hs hblock
        rcases holds_block (hholds k (kindsOf_mem ht k hk)) hfields with hdecl | hfields
        · revert hdecl
          cases kind <;> first
            | exact fun h => absurd h (by decide)
            | exact fun _ => ⟨_, rfl, by decide⟩
        · obtain ⟨c, hc, hmem⟩ := hhere hfields
          obtain rfl := Option.mem_def.mp hc
          refine ⟨c, ?_, hmem⟩
          revert hfields
          cases kind <;> first
            | exact fun h => absurd h (by decide)
            | exact fun _ => rfl
      · obtain ⟨c, hc, rfl⟩ := List.mem_map.mp hs
        obtain rfl : kind = .nestedField := hblock
        obtain ⟨c', hc', hmem⟩ := hhere (by decide)
        obtain rfl := Option.some.inj ((Option.mem_toList.mp hc).symm.trans hc')
        exact hmem

/-- In a text, blocks of fields are stored among declarations with fields. -/
theorem block_stored {t : Tree} (hshaped : Shaped .sourceFile t)
    (hroot : t.isNode .sourceFile = true) : ∀ s ∈ sitesAfter none none t,
      s.kind = .nestedField → s.collection ∈ Collection.withFields := by
  refine collection_of_block t hshaped fun kind hkind hfields => ?_
  obtain ⟨u, hu, hkindOf⟩ := List.mem_filterMap.mp hkind
  obtain rfl := List.mem_singleton.mp hu
  obtain rfl := Option.some.inj (hkindOf.symm.trans (beq_iff_eq.mp hroot))
  exact absurd hfields (by decide)

/-- **What a construct stores is as its collection asks.** -/
theorem Direct.Site.Proper.admits {s : Site} (h : s.Proper)
    (hfields : s.kind = .nestedField → s.collection ∈ Collection.withFields) (input : BuildInput) :
    s.collection.Admits s.name (s.value input) := by
  obtain ⟨c, parent, kind, node⟩ := s
  obtain ⟨-, -, hparent, inside, hcollection⟩ := h
  replace hcollection : collectionOf inside kind = some c := hcollection
  cases kind
  case nestedField =>
    obtain ⟨owner, rfl⟩ := Option.isSome_iff_exists.mp (hparent rfl)
    have hkeys : Dict.keys (slots .nestedField node) ⊆ ["options", "optionsList", "fields"] :=
      show ["fields"] ⊆ _ by decide
    have hdeclaration : IsDeclaration c (Site.name ⟨c, some owner, .nestedField, node⟩)
        (Site.value input ⟨c, some owner, .nestedField, node⟩) :=
      isDeclaration_finished rfl hkeys rfl
    have hc : c ∈ Collection.withFields := hfields rfl
    cases c <;> first
      | exact hdeclaration
      | exact absurd hc (by decide)
  all_goals first
    | exact absurd hcollection.symm (Option.some_ne_none c)
    | obtain rfl := Option.some.inj hcollection
  case legacyConstant => exact ⟨_, rfl⟩
  case configOption => exact trivial
  case api | plugin => exact named_finished rfl rfl
  case policy => exact ⟨_, rfl, rfl⟩
  case entity | input | output | event => exact isDeclaration_finished rfl (List.Subset.refl _) rfl
  case enumeration =>
    exact ⟨named_finished rfl rfl, keeps_entriesOf (get?_finished_slot rfl) fun t => ⟨_, rfl, rfl⟩⟩
  case service =>
    exact ⟨named_finished rfl rfl,
      keeps_entriesOf (get?_finished_slot rfl) (isOperation_method node)⟩
  case legacyService =>
    exact ⟨named_finished rfl rfl, _, (get?_finished_other rfl).trans rfl,
      fun _ he => isOperation_crud he⟩
  case aggregate =>
    exact ⟨named_finished rfl rfl,
      keeps_entriesOf (get?_finished_slot rfl) (isOperation_command node)⟩

/-! ### Relationships -/

theorem named_endValidations {e : Tree} : ∀ v ∈ Dict.ofList ((Build.endValidations e).map
    fun (_, name, v) => (name, Build.namedEntry name v)), Named v.1 v.2 := by
  intro v hv
  obtain ⟨kept, -, rfl⟩ := List.mem_map.mp (Dict.mem_ofList hv)
  exact ⟨_, rfl, rfl⟩

/-- An end that is there brings its mapping of checks, one that is missing brings none. -/
theorem isRelationship_of_ends (type name : String) (origin target : Option Tree) :
    IsRelationship name (.map ([("type", .string type), ("name", .string name)] ++
      (origin.map (Build.endMembers .origin)).getD [] ++
      (target.map (Build.endMembers .target)).getD [])) := by
  refine ⟨⟨_, rfl, rfl⟩, fun slot hslot hsome => ?_⟩
  cases origin <;> cases target <;> rcases List.mem_pair.mp hslot with rfl | rfl <;> first
    | exact ⟨_, rfl, named_endValidations⟩
    | exact absurd hsome Bool.false_ne_true

/-- A mapping under a name as `N` says, in which every entry is as `P` says. -/
def IsGroup (N : String → Prop) (P : String → Value → Prop) (name : String) (v : Value) : Prop :=
  N name ∧ ∃ group, v = .map group ∧ ∀ r ∈ group, P r.1 r.2

section
variable {N : String → Prop} {P : String → Value → Prop}

/-- Groups of relationships stay as they have to be, whatever relationship is added. -/
theorem isGroup_relate {groups : Members} {r : Build.Relation} (htype : N r.type)
    (hr : P r.name (.map r.node)) (h : ∀ e ∈ groups, IsGroup N P e.1 e.2) :
    ∀ e ∈ groups.relate r, IsGroup N P e.1 e.2 := by
  have hreserved : ∀ e ∈ Dict.reserve r.type .emptyMap groups, IsGroup N P e.1 e.2 := by
    intro e he
    rcases Dict.mem_reserve he with rfl | hmem
    · exact ⟨htype, [], rfl, fun _ hnone => nomatch hnone⟩
    · exact h e hmem
  intro e he
  rcases Dict.mem_modify he with hmem | ⟨v, hmem, rfl⟩
  · exact hreserved e hmem
  · obtain ⟨-, group, hgroup, hall⟩ := hreserved _ hmem
    obtain rfl : v = .map group := hgroup
    refine ⟨htype, _, rfl, fun entry hentry => ?_⟩
    rcases Dict.mem_insert hentry with rfl | hold
    · exact hr
    · exact hall entry hold

theorem isGroup_foldl (rs : List Build.Relation)
    (hrs : ∀ r ∈ rs, N r.type ∧ P r.name (.map r.node)) :
    ∀ groups : Members, (∀ e ∈ groups, IsGroup N P e.1 e.2) →
      ∀ e ∈ rs.foldl Members.relate groups, IsGroup N P e.1 e.2 := by
  induction rs with
  | nil => exact fun _ h => h
  | cons r rs ih =>
      intro groups h
      refine ih (fun r' hr' => hrs r' (List.mem_cons_of_mem _ hr')) _ ?_
      obtain ⟨htype, hr⟩ := hrs r (List.mem_cons_self ..)
      exact isGroup_relate htype hr h

end

/-- What is found in a tree was picked from the tree itself or from a child of a part of it. -/
theorem stands_found {α : Type} {pick : Option Tree → NodeKind → Tree → List α} (t : Tree) :
    ∀ {parent : Option Tree}, ∀ x ∈ found pick parent t,
      ∃ owner kind u, x ∈ pick owner kind u ∧ u.kind? = some kind ∧
        (owner = parent ∧ u = t ∨ ∃ v, owner = some v ∧ v.Part t ∧ u ∈ v.children) := by
  induction t using Tree.induct with
  | leaf => exact fun _ hx => nomatch hx
  | node kind children ih =>
      intro parent x hx
      rw [found, List.mem_append, foundAll_eq, List.mem_flatMap] at hx
      rcases hx with hx | ⟨t, ht, hx⟩
      · exact ⟨parent, kind, _, hx, rfl, .inl ⟨rfl, rfl⟩⟩
      · obtain ⟨owner, k, u, hpick, hkind, howner⟩ := ih t ht x hx
        refine ⟨owner, k, u, hpick, hkind, .inr ?_⟩
        rcases howner with ⟨rfl, rfl⟩ | ⟨v, hv, hvpart, hmem⟩
        · exact ⟨_, rfl, .whole, ht⟩
        · exact ⟨v, hv, .inside ht hvpart, hmem⟩

/-- What is found in a tree was picked from one of its nodes, which stands in another one. -/
theorem mem_found {α : Type} {pick : Option Tree → NodeKind → Tree → List α} (t : Tree)
    {within : NodeKind} {parent : Option Tree} (hshaped : Shaped within t) :
    ∀ x ∈ found pick parent t, ∃ owner kind u, x ∈ pick owner kind u ∧ u.kind? = some kind ∧
      u.Part t ∧ (∃ within, Shaped within u) ∧
        (owner = parent ∨ ∃ v ∈ owner, v.Part t ∧ ∃ within, Shaped within v) := by
  intro x hx
  obtain ⟨owner, kind, u, hpick, hkind, howner⟩ := stands_found t x hx
  have hu : u.Part t := by
    rcases howner with ⟨-, rfl⟩ | ⟨v, -, hv, hmem⟩
    · exact .whole
    · exact (Tree.part_of_mem hmem).trans hv
  refine ⟨owner, kind, u, hpick, hkind, hu, hshaped.part hu, ?_⟩
  exact howner.imp And.left fun ⟨v, hv, hpart, _⟩ => ⟨v, hv, hpart, hshaped.part hpart⟩

theorem isRelationship_found {input : BuildInput} {within : NodeKind} {t : Tree}
    (hshaped : Shaped within t) {r : Build.Relation} (hr : r ∈ found (relationsOf input) none t) :
    IsRelationship r.name (.map r.node) := by
  obtain ⟨parent, kind, u, hpick, -⟩ := mem_found t hshaped r hr
  cases kind <;> first
    | exact absurd hpick List.not_mem_nil
    | obtain rfl := List.mem_singleton.mp hpick
      exact isRelationship_of_ends ..

/-! ### Documents -/

theorem regular_draft (input : BuildInput) {t : Tree} (hshaped : Shaped .sourceFile t)
    (hroot : t.isNode .sourceFile = true) : (draft input t).document.Regular := by
  refine Document.regular_of (fun c e he => ?_) fun all hall => ?_
  · by_cases hc : c = .relationships
    · subst hc
      rw [draft_document input hshaped, Direct.document_collection] at he
      exact (isGroup_foldl (N := fun _ => True) _ (fun _ hr => ⟨trivial, isRelationship_found hshaped hr⟩)
        [] (fun _ h => nomatch h) e he).2
    · obtain ⟨s, hs, rfl, hname, hvalue⟩ := site_of_mem hshaped hc he
      have hproper : s.Proper := proper_of_mem hshaped hs
      rw [← hname, ← hvalue]
      exact hproper.admits (block_stored hshaped hroot s hs) input
  · rw [draft_document input hshaped] at hall
    exact absurd hall.symm (Option.some_ne_none all)

/-- **Every document looks as it has to**, classified or not. -/
theorem buildModel_regular (naming : Naming) (source : String) :
    ∃ m, buildModel naming source = .ok m ∧ m.document.Regular ∧
      m.classify.document.Regular := by
  have hshaped := shaped_parse source
  have hregular : (Direct.model naming source).document.Regular :=
    regular_draft ⟨naming, source.toList⟩ hshaped rfl
  exact ⟨_, buildModel_eq naming source, hregular, Model.classify_regular hregular fun _ hc =>
    declarations_draft ⟨naming, source.toList⟩ hshaped (Tree.plain_parse source) hc⟩

end DomainModel
