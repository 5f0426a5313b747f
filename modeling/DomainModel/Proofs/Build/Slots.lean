/-
What stands inside a construct ends up in its slots.

While a construct is open, every child writes into its scope at once: an annotation into
two slots, a field into one, a block of fields into the checks of the field it stands
behind.  `effect` is what one child does to the scope.  `slotsOf` says what the slots hold
when some of the children have been read, and `effect_step` that one more child takes the
one to the other.  So when all have been read, the scope holds what `Direct.slots` says in
one piece.
-/
import DomainModel.Proofs.Build.Direct
import DomainModel.Proofs.Grammar.Shape

namespace DomainModel

namespace Scope

/-- The scope with these values in its slots. -/
def holding (s : Scope) (slots : Members) : Scope := { s with node := Dict.extend s.node slots }

/-- Writes an entry into the mapping in a slot. -/
def put (s : Scope) (slot : String) (entry : String × Value) : Scope :=
  s.updateMap slot (Dict.insert entry.1 entry.2)

/-- Notes an annotation, if it has a name. -/
def annotated (s : Scope) (t : Tree) : Scope :=
  match t.identifier? with
  | none => s
  | some name =>
    (s.put "options" (name, t.annotationValue)).push "optionsList"
      (Build.namedEntry name t.annotationValue)

theorem holding_updateMap {s : Scope} {slots : Members} {key : String} {m : Members}
    (hnodup : (Dict.keys slots).Nodup) (hget : Dict.get? slots key = some (.map m))
    (g : Members → Members) :
    (s.holding slots).updateMap key g = s.holding (Dict.insert key (.map (g m)) slots) := by
  have hmap : (s.holding slots).mapAt key = m := by
    rw [mapAt, holding, Dict.get?_extend_of_nodup hnodup, hget]
    rfl
  rw [updateMap, hmap, holding, holding, Dict.insert_extend hnodup]
  rw [Dict.mem_keys_iff, hget]
  rfl

theorem holding_put {s : Scope} {slots : Members} {key : String} {m : Members}
    (hnodup : (Dict.keys slots).Nodup) (hget : Dict.get? slots key = some (.map m))
    (entry : String × Value) :
    (s.holding slots).put key entry =
      s.holding (Dict.insert key (.map (Dict.insert entry.1 entry.2 m)) slots) :=
  holding_updateMap hnodup hget _

theorem holding_push {s : Scope} {slots : Members} {key : String} {items : List Value}
    (hnodup : (Dict.keys slots).Nodup) (hget : Dict.get? slots key = some (.list items))
    (v : Value) :
    (s.holding slots).push key v = s.holding (Dict.insert key (.list (items ++ [v])) slots) := by
  have hlist : (s.holding slots).listAt key = items := by
    rw [listAt, holding, Dict.get?_extend_of_nodup hnodup, hget]
    rfl
  rw [push, hlist, holding, holding, Dict.insert_extend hnodup]
  rw [Dict.mem_keys_iff, hget]
  rfl

end Scope

namespace Direct

mutual

/-- What a tree does to the scope of the construct in which it stands. -/
def effect (parent : Option Tree) : Tree → Scope → Scope
  | .leaf _, s => s
  | .node kind children, s =>
    let here : Tree := .node kind children
    match kind with
    | .annotationNode => s.annotated here
    | .apiConfig | .pluginConfigOption => s.put "config" (Build.settingEntry here)
    | .pluginCliOption => s.put "cliOptions" (Build.cliOptionEntry here)
    | .field => s.put "fields" (fieldEntry here)
    | .nestedField => Build.withNestedValidations s here
    | .enumValue => Build.withEnumValue s here
    | .serviceMethod => s.put "methods" (methodEntry parent here)
    | .aggregateCommand => s.put "commands" (commandEntry parent here)
    | .declBody | .enumBody => effectOfAll (some here) children s
    | _ => s

def effectOfAll (parent : Option Tree) : List Tree → Scope → Scope
  | [], s => s
  | t :: ts, s => effectOfAll parent ts (effect parent t s)

end

theorem effectOfAll_append (parent : Option Tree) (ts us : List Tree) (s : Scope) :
    effectOfAll parent (ts ++ us) s = effectOfAll parent us (effectOfAll parent ts s) := by
  induction ts generalizing s with
  | nil => rfl
  | cons t ts ih => exact ih _

/-! ### Annotations -/

theorem notesIn_append (ts us : List Tree) : notesIn (ts ++ us) = notesIn ts ++ notesIn us := by
  simp [notesIn]

theorem notesIn_of_other {t : Tree} (h : t.isNode .annotationNode = false) : notesIn [t] = [] := by
  simp [notesIn, h]

theorem noted_of_other {ts : List Tree} {t : Tree} (h : t.isNode .annotationNode = false) :
    noted (ts ++ [t]) = noted ts := by
  rw [noted, notesIn_append, notesIn_of_other h, List.append_nil]
  rfl

theorem nodup_noted {more : Members} (hmore : (Dict.keys more).Nodup)
    (hoptions : "options" ∉ Dict.keys more) (hlist : "optionsList" ∉ Dict.keys more)
    (options list : Value) :
    (Dict.keys (("options", options) :: ("optionsList", list) :: more)).Nodup := by
  show ("options" :: "optionsList" :: Dict.keys more).Nodup
  rw [List.nodup_cons, List.nodup_cons]
  exact ⟨by simpa using hoptions, hlist, hmore⟩

/-- An annotation goes into the first two slots. -/
theorem annotated_holding {s : Scope} {ts : List Tree} {more : Members} {t : Tree}
    (hmore : (Dict.keys more).Nodup) (hoptions : "options" ∉ Dict.keys more)
    (hlist : "optionsList" ∉ Dict.keys more) (ht : t.isNode .annotationNode = true) :
    (s.holding (noted ts ++ more)).annotated t = s.holding (noted (ts ++ [t]) ++ more) := by
  have hnotes : notesIn [t] = (t.identifier?.map fun name => (name, t.annotationValue)).toList := by
    rw [notesIn, List.filter_cons_of_pos ht, List.filter_nil, List.filterMap_cons]
    cases t.identifier? <;> rfl
  rw [Scope.annotated]
  cases hname : t.identifier? with
  | none =>
      rw [noted, noted, notesIn_append, hnotes, hname]
      simp
  | some name =>
      have hnodup := nodup_noted hmore hoptions hlist
      show (((s.holding (("options", _) :: ("optionsList", _) :: more)).put _ _).push _ _) = _
      rw [Scope.holding_put (hnodup _ _) rfl, Dict.insert, if_pos rfl,
        Scope.holding_push (hnodup _ _) rfl, Dict.insert,
        if_neg (show ¬"options" = "optionsList" by decide), Dict.insert, if_pos rfl, noted, notesIn_append, hnotes, hname]
      simp [Dict.ofList, Dict.extend_concat]

/-! ### One child more -/

/-- Kinds whose nodes change a slot of the construct they stand in. -/
def noticed : List NodeKind :=
  [.annotationNode, .apiConfig, .pluginConfigOption, .pluginCliOption, .declBody, .field,
    .nestedField, .enumBody, .serviceMethod, .aggregateCommand]

/-- What is not noticed leaves the slots as they are. -/
theorem slotsOf_of_unnoticed {here : Tree} {kind : NodeKind} {ts : List Tree} {t : Tree}
    (h : ∀ k ∈ noticed, t.isNode k = false) :
    slotsOf here kind (ts ++ [t]) = slotsOf here kind ts := by
  simp only [noticed, List.forall_mem_cons] at h
  rw [slotsOf, slotsOf, noted_of_other h.1]
  cases kind <;>
    simp [content, checks, entriesOf, checksBehind, inside, List.filter_append, h]

/-- Fields in a body go into one slot. -/
theorem effectOfAll_fields {s : Scope} {parent : Option Tree} {ts : List Tree} {m slots : Members}
    (hnodup : (Dict.keys slots).Nodup) (hget : Dict.get? slots "fields" = some (.map m))
    (hkinds : ∀ k ∈ kindsOf ts, k = .field ∨ k = .junk) :
    effectOfAll parent ts (s.holding slots) =
      s.holding (Dict.insert "fields" (.map
        (Dict.extend m ((ts.filter (Tree.isNode .field)).map fieldEntry))) slots) := by
  induction ts generalizing m slots with
  | nil => rw [effectOfAll, List.filter_nil, List.map_nil, Dict.extend, List.foldl_nil,
      Dict.insert_get? hget]
  | cons t ts ih =>
      have hrest : ∀ k ∈ kindsOf ts, k = .field ∨ k = .junk := fun k hk =>
        hkinds k (by rw [← List.singleton_append, kindsOf_append]; exact List.mem_append_right _ hk)
      rw [effectOfAll]
      cases t with
      | leaf => exact ih hnodup hget hrest
      | node kind children =>
          rcases hkinds kind (List.mem_cons_self ..) with rfl | rfl
          · rw [effect, Scope.holding_put hnodup hget,
              ih (Dict.nodup_keys_insert hnodup _ _) (by rw [Dict.get?_insert, if_pos rfl]) hrest,
              Dict.insert_insert]
            rfl
          · exact ih hnodup hget hrest

theorem withEnumValue_holding {s : Scope} {ts : List Tree} {b : Bool} {m : Members} (t : Tree) :
    Build.withEnumValue (s.holding (noted ts ++ [("hasValue", .bool b), ("values", .map m)])) t =
      s.holding (noted ts ++ [("hasValue", .bool (b || t.literal?.isSome)),
        ("values", .map (Dict.insert t.nameOrEmpty (enumValueEntry t).2 m))]) := by
  have hnodup : ∀ b : Bool,
      (Dict.keys (noted ts ++ [("hasValue", .bool b), ("values", .map m)])).Nodup := fun _ =>
    nodup_noted (by simp [Dict.keys]) (by simp [Dict.keys]) (by simp [Dict.keys]) _ _
  rw [Build.withEnumValue, enumValueEntry]
  cases hliteral : t.literal? with
  | none =>
      show (s.holding _).updateMap "values" _ = _
      rw [Scope.holding_updateMap (hnodup _) rfl]
      simp [noted, Dict.insert]
  | some literal =>
      have hmark : ({ s.holding (noted ts ++ [("hasValue", .bool b), ("values", .map m)]) with
          node := Dict.insert "hasValue" (.bool true)
            (s.holding (noted ts ++ [("hasValue", .bool b), ("values", .map m)])).node } : Scope) =
          s.holding (noted ts ++ [("hasValue", .bool true), ("values", .map m)]) := by
        rw [Scope.holding, Dict.insert_extend (hnodup b) (by simp [Dict.keys, noted])]
        simp [noted, Dict.insert, Scope.holding]
      show (Scope.updateMap { s.holding _ with node := _ } "values" _) = _
      rw [hmark, Scope.holding_updateMap (hnodup _) rfl]
      simp [noted, Dict.insert]

/-- Values in a body go into one slot, and any that is written out is marked in another. -/
theorem effectOfAll_values {s : Scope} {parent : Option Tree} {ts us : List Tree} {b : Bool}
    {m : Members} (hkinds : ∀ k ∈ kindsOf ts, k = .enumValue ∨ k = .junk) :
    effectOfAll parent ts
        (s.holding (noted us ++ [("hasValue", .bool b), ("values", .map m)])) =
      s.holding (noted us ++
        [("hasValue", .bool (b || (ts.filter (Tree.isNode .enumValue)).any (·.literal?.isSome))),
          ("values", .map
            (Dict.extend m ((ts.filter (Tree.isNode .enumValue)).map enumValueEntry)))]) := by
  induction ts generalizing b m with
  | nil => simp [effectOfAll, Dict.extend]
  | cons t ts ih =>
      have hrest : ∀ k ∈ kindsOf ts, k = .enumValue ∨ k = .junk := fun k hk =>
        hkinds k (by rw [← List.singleton_append, kindsOf_append]; exact List.mem_append_right _ hk)
      rw [effectOfAll]
      cases t with
      | leaf => exact ih hrest
      | node kind children =>
          rcases hkinds kind (List.mem_cons_self ..) with rfl | rfl
          · rw [effect, withEnumValue_holding, ih hrest]
            simp [Tree.isNode, Tree.kind?, Bool.or_assoc, Dict.extend,
              enumValueEntry]
          · exact ih hrest

/-- An entry goes into the slot of its kind. -/
theorem holding_put_entry {s : Scope} {slots : Members} {slot : String} {kind : NodeKind}
    {entry : Tree → String × Value} {ts : List Tree} {t : Tree}
    (hnodup : (Dict.keys slots).Nodup) (hget : Dict.get? slots slot = some (entriesOf kind entry ts))
    (ht : t.isNode kind = true) :
    (s.holding slots).put slot (entry t) =
      s.holding (Dict.insert slot (entriesOf kind entry (ts ++ [t])) slots) := by
  rw [Scope.holding_put hnodup hget, entriesOf, List.filter_append, List.filter_cons_of_pos ht,
    List.filter_nil, List.map_append, List.map_singleton, Dict.ofList_concat]

theorem entriesOf_of_other {kind : NodeKind} {entry : Tree → String × Value} {ts : List Tree}
    {t : Tree} (ht : t.isNode kind = false) :
    entriesOf kind entry (ts ++ [t]) = entriesOf kind entry ts := by
  simp [entriesOf, List.filter_append, ht]

theorem entriesOf_append (kind : NodeKind) (entry : Tree → String × Value) (ts us : List Tree) :
    entriesOf kind entry (ts ++ us) =
      .map (Dict.extend (Dict.ofList ((ts.filter (Tree.isNode kind)).map entry))
        ((us.filter (Tree.isNode kind)).map entry)) := by
  rw [entriesOf, List.filter_append, List.map_append, Dict.ofList, Dict.extend_append]
  rfl

theorem inside_concat (body : NodeKind) (ts parts : List Tree) :
    inside body (ts ++ [.node body parts]) = inside body ts ++ parts := by
  simp [inside, Tree.isNode, Tree.kind?, Tree.children]

theorem effect_of_unnoticed {parent : Option Tree} {t : Tree} {s : Scope}
    (h : ∀ k ∈ kindsOf [t], k ∉ noticed ∧ k ≠ .enumValue) : effect parent t s = s := by
  cases t with
  | leaf => rfl
  | node kind children =>
      obtain ⟨hnot, hvalue⟩ := h kind (List.mem_cons_self ..)
      cases kind <;> first
        | rfl
        | exact absurd (by decide) hnot
        | exact absurd rfl hvalue

theorem keys_content (here : Tree) (kind : NodeKind) (ts : List Tree) :
    (Dict.keys (content here kind ts)).Nodup ∧ "options" ∉ Dict.keys (content here kind ts) ∧
      "optionsList" ∉ Dict.keys (content here kind ts) := by
  cases kind <;> simp [content, checks, Dict.keys]

theorem content_of_annotation (here : Tree) (kind : NodeKind) (ts : List Tree) {t : Tree}
    (h : t.isNode .annotationNode = true) :
    content here kind (ts ++ [t]) = content here kind ts := by
  have hother : ∀ k, k ≠ .annotationNode → t.isNode k = false := by
    intro k hk
    rw [Tree.isNode, beq_iff_eq] at h
    rw [Tree.isNode, h, beq_eq_false_iff_ne]
    exact fun heq => hk (Option.some.inj heq).symm
  cases kind <;>
    simp [content, checks, entriesOf, checksBehind, inside, List.filter_append, hother]

theorem nodup_slotsOf (here : Tree) (kind : NodeKind) (ts : List Tree) :
    (Dict.keys (slotsOf here kind ts)).Nodup := by
  obtain ⟨hnodup, hoptions, hlist⟩ := keys_content here kind ts
  rw [slotsOf]
  split
  · exact nodup_noted hnodup hoptions hlist _ _
  · exact hnodup

theorem insert_noted {slot : String} (ts : List Tree) (v : Value) (more : Members)
    (hoptions : slot ≠ "options") (hlist : slot ≠ "optionsList") :
    Dict.insert slot v (noted ts ++ more) = noted ts ++ Dict.insert slot v more := by
  simp [noted, Dict.insert, hoptions.symm, hlist.symm]

/-- The constructs in which a kind is noticed. -/
def ownersOf : NodeKind → List NodeKind
  | .annotationNode => annotatable
  | .apiConfig => [.api]
  | .pluginConfigOption | .pluginCliOption => [.plugin]
  | .declBody => NodeKind.declarations
  | .field => [.nestedField]
  | .nestedField => [.field]
  | .enumBody => [.enumeration]
  | .serviceMethod => [.service]
  | .aggregateCommand => [.aggregate]
  | _ => []

theorem mem_ownersOf {within kind k : NodeKind} (hscope : kind.isScope = true)
    (hk : k ∈ NodeKind.holds within kind) (hnoticed : k ∈ noticed) : kind ∈ ownersOf k := by
  have h : ∀ k ∈ NodeKind.holds .sourceFile kind, k ∈ noticed → kind ∈ ownersOf k := by
    revert hscope
    cases kind <;> decide
  exact h k (NodeKind.holds_subset hk) hnoticed

theorem ne_enumValue {within kind k : NodeKind} (hscope : kind.isScope = true)
    (hk : k ∈ NodeKind.holds within kind) : k ≠ .enumValue := by
  have h : ∀ k ∈ NodeKind.holds .sourceFile kind, k ≠ .enumValue := by
    revert hscope
    cases kind <;> decide
  exact h k (NodeKind.holds_subset hk)

/-- **One more child of a construct takes its slots one step further.** -/
theorem effect_step {within kind : NodeKind} {here : Tree} {ts : List Tree} {t : Tree}
    (hscope : kind.isScope = true) (hholds : ∀ k ∈ kindsOf [t], k ∈ NodeKind.holds within kind)
    (hshaped : Shaped kind t) (s : Scope) :
    effect (some here) t (s.holding (slotsOf here kind ts)) =
      s.holding (slotsOf here kind (ts ++ [t])) := by
  have hnodup := nodup_slotsOf here kind ts
  cases hshaped with
  | leaf => rw [slotsOf_of_unnoticed (fun _ _ => rfl), effect]
  | @node _ k parts hparts =>
      have hk : k ∈ NodeKind.holds within kind := hholds k (List.mem_cons_self ..)
      by_cases hnoticed : k ∈ noticed
      · have howner := mem_ownersOf hscope hk hnoticed
        have hother : k ≠ .annotationNode →
            noted (ts ++ [.node k parts]) = noted ts := fun hne =>
          noted_of_other (by rw [Tree.isNode, Tree.kind?, beq_eq_false_iff_ne]; simpa using hne)
        cases k
        case annotationNode =>
          -- Whatever notes an annotation has the same two slots for it.
          obtain ⟨hmore, hoptions, hlist⟩ := keys_content here kind ts
          have hnotes : annotatable.contains kind = true := List.contains_iff_mem.mpr howner
          rw [slotsOf, slotsOf, if_pos hnotes, if_pos hnotes, content_of_annotation _ _ _ rfl]
          exact annotated_holding hmore hoptions hlist rfl
        case apiConfig | serviceMethod | aggregateCommand =>
          obtain rfl := List.mem_singleton.mp howner
          rw [effect, holding_put_entry hnodup rfl rfl, slotsOf, slotsOf, hother (by decide)]
          exact congrArg s.holding (insert_noted ts _ _ (by decide) (by decide))
        case pluginConfigOption | pluginCliOption =>
          obtain rfl := List.mem_singleton.mp howner
          rw [effect, holding_put_entry hnodup rfl rfl]
          refine congrArg s.holding ?_
          simpa [slotsOf, annotatable, content, Dict.insert] using (entriesOf_of_other rfl).symm
        case declBody =>
          -- The fields of the body are written into one slot.
          have hslots : ∀ us, slotsOf here kind us =
              noted us ++ [("fields", entriesOf .field fieldEntry (inside .declBody us))] := by
            intro us
            simp only [ownersOf, NodeKind.declarations, List.mem_cons, List.not_mem_nil,
              or_false] at howner
            rcases howner with rfl | rfl | rfl | rfl <;> rfl
          have hkinds : ∀ k ∈ kindsOf parts, k = .field ∨ k = .junk := fun k hk => by
            simpa [NodeKind.holds] using hparts k hk
          rw [hslots, hslots, effect, effectOfAll_fields (hslots ts ▸ hnodup) rfl hkinds,
            insert_noted _ _ _ (by decide) (by decide), hother (by decide), inside_concat,
            entriesOf_append]
          rfl
        case field =>
          obtain rfl := List.mem_singleton.mp howner
          rw [effect, holding_put_entry hnodup rfl rfl]
          rfl
        case nestedField =>
          -- The field takes over the checks behind its block.
          obtain rfl := List.mem_singleton.mp howner
          rw [effect, Build.withNestedValidations, Scope.holding_updateMap hnodup rfl, slotsOf,
            slotsOf, hother (by decide)]
          refine congrArg s.holding ((insert_noted ts _ _ (by decide) (by decide)).trans ?_)
          simp [annotatable, content, checks, checksBehind, Dict.insert, Dict.extend_append,
            Tree.isNode, Tree.kind?]
        case enumBody =>
          obtain rfl := List.mem_singleton.mp howner
          have hkinds : ∀ k ∈ kindsOf parts, k = .enumValue ∨ k = .junk := fun k hk => by
            simpa [NodeKind.holds] using hparts k hk
          rw [effect]
          refine (effectOfAll_values hkinds).trans (congrArg s.holding ?_)
          simp [slotsOf, annotatable, content, hother, inside_concat, Dict.ofList,
            Dict.extend_append]
        all_goals exact absurd hnoticed (by decide)
      · rw [slotsOf_of_unnoticed, effect_of_unnoticed]
        · intro k' hk'
          rw [List.mem_singleton.mp (show k' ∈ [k] from hk')]
          exact ⟨hnoticed, ne_enumValue hscope hk⟩
        · intro k' hk'
          rw [Tree.isNode, Tree.kind?, beq_eq_false_iff_ne]
          exact fun heq => hnoticed (Option.some.inj heq ▸ hk')

/-- **What all children do to a scope is what the construct holds of them.** -/
theorem effectOfAll_eq {within kind : NodeKind} (here : Tree) {ts : List Tree}
    (hscope : kind.isScope = true) (hholds : ∀ k ∈ kindsOf ts, k ∈ NodeKind.holds within kind)
    (hshaped : ∀ t ∈ ts, Shaped kind t) (s : Scope) :
    effectOfAll (some here) ts (s.holding (slotsOf here kind [])) =
      s.holding (slotsOf here kind ts) := by
  induction ts using List.reverseRecOn with
  | nil => rfl
  | append_singleton ts t ih =>
      rw [effectOfAll_append, ih]
      · refine effect_step hscope (fun k hk => hholds k ?_) (hshaped t (by simp)) s
        rw [kindsOf_append]
        exact List.mem_append_right _ hk
      · intro k hk
        refine hholds k ?_
        rw [kindsOf_append]
        exact List.mem_append_left _ hk
      · exact fun u hu => hshaped u (List.mem_append_left _ hu)

end Direct

end DomainModel
