/-
A document is read off the essence of its tree.

Each construct asks its tree a few questions, and all of them have one answer for the tree and
for its essence (`Tree.Questions`).  So the members of a construct, what stands inside it and
the constructs that are stored are the same for both, and with them the whole document
(`document_essence`).  Spans are not: a document holds none, so neither the source text nor
the places of tokens matter to it.

That the tree keeps its shape matters in two places.  An initial value that is no literal is
quoted whole, so no node may stand inside it; and a block of fields asks the construct around
it for its doc comment, so that has to be a field.
-/
import DomainModel.Proofs.Build.Names
import DomainModel.Proofs.Tree.Questions

namespace DomainModel

open Build Direct
open DomainModel.Tree (nodes quotes_of_isNode quotes_of_child? isNode_of_child? map_map_essence
  bind_map_essence bind_child?_essence isNode_of_bind_child? Distilled distilled_children)

/-! ### Checks and initial values -/

theorem validationEntry_essence {t : Tree} (h : t.isNode .validation = true) :
    validationEntry t.essence = validationEntry t := by
  rw [validationEntry, validationEntry, Tree.identifier?_essence h (by decide),
    Tree.argument?_essence h]

theorem validationEntries_essence (t : Tree) :
    validationEntries t.essence.validations = validationEntries t.validations := by
  exact congrArg Dict.ofList
    ((distilled_children t).filterMap_filter fun _ _ => validationEntry_essence)

/-- Nothing but a literal stands inside an initial value. -/
theorem Shaped.nodes_initialValue {within : NodeKind} {t : Tree} (h : Shaped within t)
    (hkind : t.isNode .initialValue = true) (hliteral : t.literal? = none) :
    nodes t.children = [] := by
  cases h with
  | leaf => rfl
  | node hholds _ _ _ =>
      obtain rfl := Option.some.inj (beq_iff_eq.mp hkind)
      refine List.filter_eq_nil_iff.mpr fun u hu hnode => ?_
      obtain ⟨k, hk⟩ := Option.isSome_iff_exists.mp hnode
      obtain rfl := List.mem_singleton.mp (hholds k (List.mem_filterMap.mpr ⟨u, hu, hk⟩))
      exact List.find?_eq_none.mp hliteral u hu (beq_iff_eq.mpr hk)

theorem initialValueOf_essence {within : NodeKind} {t : Tree} (h : Shaped within t) :
    initialValueOf t.essence = initialValueOf t := by
  rw [initialValueOf, initialValueOf, Tree.child?_essence]
  cases hchild : t.child? .initialValue with
  | none => rfl
  | some written =>
      rw [Option.map_some]
      simp only [Tree.literal?_essence]
      cases hliteral : written.literal? with
      | some literal => exact Tree.scalar_essence (Tree.quotes_of_literal? hliteral)
      | none =>
          obtain ⟨_, hwritten⟩ := h.child (Tree.child?_spec hchild).1
          have hkind := isNode_of_child? hchild
          have hnodes := hwritten.nodes_initialValue hkind hliteral
          have htext := congrArg (onText Text.trim) (Tree.text_essence hkind hliteral hnodes)
          exact congrArg Literal.word (htext.trans (Tree.onText_trim _))

/-! ### Members -/

theorem fieldTypeOf_essence (t : Tree) : fieldTypeOf t.essence = fieldTypeOf t := by
  rw [fieldTypeOf, fieldTypeOf, Tree.child?_essence]
  cases hchild : t.child? .fieldType with
  | none => rfl
  | some type =>
      simp only [Option.map_some, Tree.hasBrackets_essence (quotes_of_child? hchild rfl),
        Tree.identifier?_essence (isNode_of_child? hchild) (by decide : NodeKind.fieldType ≠ _)]

theorem fieldMembers_essence {within : NodeKind} {t : Tree} (h : Shaped within t)
    (hkind : t.isNode .field = true) : fieldMembers t.essence = fieldMembers t := by
  rw [fieldMembers, fieldMembers, Tree.docOf_anyJavadoc?_essence (quotes_of_isNode hkind rfl),
    fieldTypeOf_essence, Tree.nameOrEmpty_essence, initialValueOf_essence h,
    validationEntries_essence]

/-! ### What stands inside -/

section Inside

variable {ts us : List Tree}

theorem inside_distilled (h : Distilled us ts) (body : NodeKind) :
    Distilled (inside body us) (inside body ts) := by
  rw [Distilled, inside, inside, h.filter, nodes, nodes, List.filter_flatMap, List.filter_flatMap,
    List.flatMap_map, List.map_flatMap]
  exact List.flatMap_congr fun t _ => distilled_children t

theorem notesIn_distilled (h : Distilled us ts) : notesIn us = notesIn ts := by
  refine h.filterMap_filter fun t _ hkind => ?_
  rw [Tree.identifier?_essence hkind (by decide), Tree.annotationValue_essence]

theorem noted_distilled (h : Distilled us ts) : noted us = noted ts := by
  rw [noted, noted, notesIn_distilled h]

theorem entriesOf_distilled (h : Distilled us ts) {kind : NodeKind}
    {entry entry' : Tree → String × Value}
    (hentry : ∀ t ∈ ts, t.isNode kind = true → entry t.essence = entry' t) :
    entriesOf kind entry us = entriesOf kind entry' ts :=
  congrArg (fun es => Value.map (Dict.ofList es)) (h.map_filter hentry)

theorem checks_distilled (h : Distilled us ts) (t : Tree) : checks t.essence us = checks t ts := by
  have hbehind : checksBehind us = checksBehind ts := by
    rw [checksBehind, checksBehind, h.filter, List.flatMap_map]
    exact List.flatMap_congr fun block _ => validationEntries_essence block
  rw [checks, checks, hbehind, validationEntries_essence]

end Inside

theorem fieldEntry_essence {within : NodeKind} {t : Tree} (h : Shaped within t)
    (hkind : t.isNode .field = true) : fieldEntry t.essence = fieldEntry t := by
  rw [fieldEntry, fieldEntry, Tree.nameOrEmpty_essence, fieldMembers_essence h hkind,
    noted_distilled (distilled_children t), checks_distilled (distilled_children t)]

theorem literal_map_essence {α : Type} {f : Tree → α}
    (h : ∀ u : Tree, u.quotes = false → f u.essence = f u) (t : Tree) :
    t.essence.literal?.map f = t.literal?.map f := by
  rw [Tree.literal?_essence]
  exact map_map_essence fun u hu => h u (Tree.quotes_of_literal? hu)

theorem enumValueEntry_essence {t : Tree} (hkind : t.isNode .enumValue = true) :
    enumValueEntry t.essence = enumValueEntry t := by
  rw [enumValueEntry, enumValueEntry, Tree.nameOrEmpty_essence,
    Tree.docOf_anyJavadoc?_essence (quotes_of_isNode hkind rfl),
    literal_map_essence fun _ => Tree.scalar_essence]

theorem settingEntry_essence (t : Tree) : settingEntry t.essence = settingEntry t := by
  rw [settingEntry, settingEntry, Tree.nameOrEmpty_essence, Tree.settingValue_essence]

theorem cliOptionEntry_essence (t : Tree) : cliOptionEntry t.essence = cliOptionEntry t := by
  rw [cliOptionEntry, cliOptionEntry, Tree.nameOrEmpty_essence,
    literal_map_essence fun _ => Tree.bareText_essence]

theorem constantEntry_essence (t : Tree) : constantEntry t.essence = constantEntry t := by
  rw [constantEntry, constantEntry, Tree.nameOrEmpty_essence,
    literal_map_essence fun _ => Tree.literalSource_essence]

theorem ownerName_essence (owner : Option Tree) :
    (owner.map Tree.essence).bind Tree.name? = owner.bind Tree.name? :=
  bind_map_essence fun u _ => Tree.name?_essence u

theorem filter_map_essence {p : Tree → Bool} (hp : ∀ u, p u.essence = p u) (part : Option Tree) :
    (part.map Tree.essence).filter p = (part.filter p).map Tree.essence := by
  cases part with
  | none => rfl
  | some u =>
      rw [Option.map_some, Option.filter_some, Option.filter_some, hp]
      cases p u <;> rfl

theorem policyEntry_essence (block : Option Tree) (t : Tree) :
    policyEntry (block.map Tree.essence) t.essence = policyEntry block t := by
  rw [policyEntry, policyEntry, Tree.nameOrEmpty_essence, ownerName_essence,
    literal_map_essence fun _ => Tree.scalar_essence]

/-! ### Methods and commands -/

theorem eventName_essence {t : Tree} (h : t.quotes = false) :
    eventName t.essence = eventName t := by
  rw [eventName, eventName, Tree.word?_essence h]

theorem eventsOf_essence (t : Tree) : eventsOf t.essence = eventsOf t := by
  have hentries (list : Tree) :
      list.essence.eventEntries.map eventValue = list.eventEntries.map eventValue := by
    rw [Tree.eventEntries, Tree.eventEntries, List.map_filterMap, List.map_filterMap]
    refine (distilled_children list).filterMap (fun _ => rfl) fun u _ => ?_
    cases u with
    | leaf => rfl
    | node kind children =>
        cases kind
        case eventRef => exact congrArg some (eventName_essence (t := .node .eventRef children) rfl)
        case eventGroup =>
          refine congrArg (fun names => some (Value.list names)) ?_
          exact (distilled_children (.node .eventGroup children)).map_filter fun _ _ hkind =>
            eventName_essence (quotes_of_isNode hkind rfl)
        all_goals rfl
  rw [eventsOf, eventsOf, Tree.child?_essence]
  cases t.child? .withEvents with
  | none => rfl
  | some list => exact congrArg Value.list (hentries list)

theorem parameterMember_essence (t : Tree) : parameterMember t.essence = parameterMember t := by
  rw [parameterMember, parameterMember, parameterNode?, Tree.child?_essence, bind_child?_essence,
    bind_map_essence fun u hu =>
      Tree.word?_essence (quotes_of_isNode (isNode_of_bind_child? hu) rfl)]
  rfl

theorem hasParameter_essence (t : Tree) (kind : NodeKind) :
    hasParameter t.essence kind = hasParameter t kind := by
  rw [hasParameter, hasParameter, Tree.child?_essence, bind_child?_essence, Option.isSome_map]

theorem sharedMembers_essence {t : Tree} (h : t.quotes = false) :
    sharedMembers t.essence = sharedMembers t := by
  rw [sharedMembers, sharedMembers, eventsOf_essence, Tree.docOf_anyJavadoc?_essence h]

theorem methodMembers_essence (ownerName : String) {t : Tree} (h : t.quotes = false) :
    methodMembers ownerName t.essence = methodMembers ownerName t := by
  rw [methodMembers, methodMembers, Tree.nameOrEmpty_essence, hasParameter_essence,
    hasParameter_essence, parameterMember_essence, sharedMembers_essence h, Tree.child?_essence]
  cases hresult : t.child? .methodReturn with
  | none => rfl
  | some result =>
      have hquotes : result.quotes = false := quotes_of_child? hresult rfl
      simp only [Option.map_some, Option.bind_some, Option.any_some,
        Tree.identifier?_essence (isNode_of_child? hresult) (by decide : NodeKind.methodReturn ≠ _),
        Tree.hasBrackets_essence hquotes, Tree.hasQuestion_essence hquotes]

theorem commandMembers_essence (ownerName : String) {t : Tree} (h : t.quotes = false) :
    commandMembers ownerName t.essence = commandMembers ownerName t := by
  rw [commandMembers, commandMembers, Tree.nameOrEmpty_essence, parameterMember_essence,
    sharedMembers_essence h]

theorem methodEntry_essence (owner : Option Tree) {t : Tree}
    (hkind : t.isNode .serviceMethod = true) :
    methodEntry (owner.map Tree.essence) t.essence = methodEntry owner t := by
  rw [methodEntry, methodEntry, Tree.nameOrEmpty_essence, ownerName_essence,
    methodMembers_essence _ (quotes_of_isNode hkind rfl), noted_distilled (distilled_children t)]

theorem commandEntry_essence (owner : Option Tree) {t : Tree}
    (hkind : t.isNode .aggregateCommand = true) :
    commandEntry (owner.map Tree.essence) t.essence = commandEntry owner t := by
  rw [commandEntry, commandEntry, Tree.nameOrEmpty_essence, ownerName_essence,
    commandMembers_essence _ (quotes_of_isNode hkind rfl), noted_distilled (distilled_children t)]

/-! ### Slots -/

/-- The fields of a declaration, wherever its bodies are. -/
theorem fieldEntries_essence {within : NodeKind} {t : Tree} (h : Shaped within t) :
    entriesOf .field fieldEntry (inside .declBody t.essence.children) =
      entriesOf .field fieldEntry (inside .declBody t.children) := by
  have hinside := inside_distilled (distilled_children t) .declBody
  refine entriesOf_distilled hinside fun field hfield hkind => ?_
  obtain ⟨body, hbody, hfield⟩ := List.mem_flatMap.mp hfield
  obtain ⟨_, hshaped⟩ := h.child (List.mem_filter.mp hbody).1
  obtain ⟨_, hshaped⟩ := hshaped.child hfield
  exact fieldEntry_essence hshaped hkind

theorem values_essence (t : Tree) :
    content t.essence .enumeration t.essence.children = content t .enumeration t.children := by
  have hinside := inside_distilled (distilled_children t) .enumBody
  have hentries : entriesOf .enumValue enumValueEntry (inside .enumBody t.essence.children) =
      entriesOf .enumValue enumValueEntry (inside .enumBody t.children) :=
    entriesOf_distilled hinside fun _ _ => enumValueEntry_essence
  have hany : (fun u : Tree => u.literal?.isSome) ∘ Tree.essence = fun u => u.literal?.isSome := by
    funext u
    rw [Function.comp_apply, Tree.literal?_essence, Option.isSome_map]
  rw [entriesOf, entriesOf] at hentries
  rw [content, content, hentries, hinside.filter, List.any_map, hany]

/-- What a construct holds is read off its essence. -/
theorem slots_essence {within : NodeKind} {t : Tree} (h : Shaped within t) (kind : NodeKind) :
    slots kind t.essence = slots kind t := by
  have hdistilled := distilled_children t
  have hcontent : content t.essence kind t.essence.children = content t kind t.children := by
    cases kind <;> first
      | rfl
      | exact congrArg (fun fields => [("fields", fields)]) (fieldEntries_essence h)
      | skip
    case api =>
      exact congrArg (fun config => [("config", config)])
        (entriesOf_distilled hdistilled fun u _ _ => settingEntry_essence u)
    case plugin =>
      rw [content, content, entriesOf_distilled hdistilled fun u _ _ => settingEntry_essence u,
        entriesOf_distilled hdistilled fun u _ _ => cliOptionEntry_essence u]
    case nestedField =>
      refine congrArg (fun fields => [("fields", fields)])
        (entriesOf_distilled hdistilled fun u hu hkind => ?_)
      obtain ⟨_, hshaped⟩ := h.child hu
      exact fieldEntry_essence hshaped hkind
    case field => exact checks_distilled hdistilled t
    case enumeration => exact values_essence t
    case service =>
      exact congrArg (fun methods => [("methods", methods)])
        (entriesOf_distilled hdistilled fun u _ => methodEntry_essence (some t))
    case aggregate =>
      exact congrArg (fun commands => [("commands", commands)])
        (entriesOf_distilled hdistilled fun u _ => commandEntry_essence (some t))
  rw [slots, slots, slotsOf, slotsOf, noted_distilled hdistilled, hcontent]

/-! ### Relationships -/

theorem endOn_essence (t : Tree) (side : Side) :
    endOn t.essence side = (endOn t side).map Tree.essence := by
  rw [endOn, endOn, Tree.child?_essence]
  refine filter_map_essence (fun e => ?_) _
  rw [Tree.child?_essence, Option.isSome_map]

theorem quotes_of_endOn {t e : Tree} {side : Side} (h : endOn t side = some e) :
    e.quotes = false := by
  have hchild := (Option.filter_eq_some_iff.mp h).1
  cases side <;> exact quotes_of_child? hchild rfl

theorem injectedName?_essence (e : Tree) : e.essence.injectedName? = e.injectedName? := by
  rw [Tree.injectedName?, Tree.injectedName?, Tree.child?_essence, ownerName_essence]

theorem injectedDescription?_essence (e : Tree) :
    e.essence.injectedDescription? = e.injectedDescription? := by
  rw [Tree.injectedDescription?, Tree.injectedDescription?, Tree.child?_essence,
    bind_child?_essence, ownerName_essence]

theorem endText_essence (e : Option Tree) : endText (e.map Tree.essence) = endText e := by
  cases e with
  | none => rfl
  | some e =>
      rw [Option.map_some, endText, endText, Tree.nameOrEmpty_essence, injectedName?_essence]

theorem endValidation_essence {t : Tree} (h : t.isNode .validation = true) :
    endValidation t.essence = endValidation t := by
  rw [endValidation, endValidation, Tree.identifier?_essence h (by decide),
    Tree.argument?_essence h]

/-- The checks that are kept of an end are the same, apart from their trees. -/
theorem endValidations_essence (e : Tree) :
    (endValidations e.essence).map Prod.snd = (endValidations e).map Prod.snd := by
  have hkept (e : Tree) :
      (endValidations e).map Prod.snd = e.injectedValidations.filterMap endValidation := by
    rw [endValidations, List.map_filterMap]
    refine List.filterMap_congr fun t _ => ?_
    cases endValidation t <;> rfl
  have hinjected : e.essence.injectedValidations = e.injectedValidations.map Tree.essence := by
    rw [Tree.injectedValidations, Tree.injectedValidations, Tree.child?_essence]
    cases e.child? .relationshipField with
    | none => rfl
    | some field => exact Tree.childrenOf_essence .validation field
  rw [hkept, hkept, hinjected, List.filterMap_map]
  refine List.filterMap_congr fun t ht => endValidation_essence ?_
  rw [Tree.injectedValidations] at ht
  split at ht
  · exact nomatch ht
  · exact (List.mem_filter.mp ht).2

theorem map_endValidations {α : Type} {f : Tree × String × Value → α}
    (hf : ∀ t t' check, f (t, check) = f (t', check)) (e : Tree) :
    (endValidations e.essence).map f = (endValidations e).map f := by
  have hsnd : f = (fun check => f (e, check)) ∘ Prod.snd := funext fun kept => hf kept.1 e kept.2
  rw [hsnd, ← List.map_map, endValidations_essence, List.map_map]

theorem any_endValidations {f : Tree × String × Value → Bool}
    (hf : ∀ t t' check, f (t, check) = f (t', check)) (e : Tree) :
    (endValidations e.essence).any f = (endValidations e).any f := by
  have hmap (kept : List (Tree × String × Value)) : kept.any f = (kept.map f).any id := by
    rw [List.any_map, Function.id_comp]
  rw [hmap, map_endValidations hf, ← hmap]

theorem endMembers_essence (side : Side) {e : Tree} (h : e.quotes = false) :
    endMembers side e.essence = endMembers side e := by
  have hnotes : notesIn e.essence.children = notesIn e.children :=
    notesIn_distilled (distilled_children e)
  rw [notesIn, notesIn] at hnotes
  rw [endMembers, endMembers, Tree.nameOrEmpty_essence, Tree.docOf_javadoc?_essence h,
    injectedName?_essence, injectedDescription?_essence, Tree.annotations, Tree.childrenOf, hnotes,
    map_endValidations, any_endValidations]
  · rfl
  · exact fun _ _ _ => rfl
  · exact fun _ _ _ => rfl

/-- A relationship without the spans of its parts. -/
def Build.Relation.unplaced (r : Build.Relation) : Build.Relation := { r with records := [] }

theorem relation_essence (input input' : BuildInput) (group : Option Tree) (t : Tree) :
    (relation input' (group.map Tree.essence) t.essence).unplaced =
      (relation input group t).unplaced := by
  have hmembers (side : Side) : ((endOn t.essence side).map (endMembers side)).getD [] =
      ((endOn t side).map (endMembers side)).getD [] := by
    rw [endOn_essence,
      map_map_essence fun e he => endMembers_essence side (quotes_of_endOn he)]
  have hname (side : Side) : endText (endOn t.essence side) = endText (endOn t side) := by
    rw [endOn_essence, endText_essence]
  simp only [Relation.unplaced, relation, ownerName_essence, hname, hmembers]

/-! ### Openings -/

theorem aggregateNames_essence (t : Tree) : t.essence.aggregateNames = t.aggregateNames := by
  rw [Tree.aggregateNames, Tree.aggregateNames, Tree.child?_essence]
  cases t.child? .serviceAggregates with
  | none => rfl
  | some list =>
      exact (distilled_children list).filterMap_filter fun _ _ hkind =>
        Tree.word?_essence (quotes_of_isNode hkind rfl)

theorem inherited_essence (t : Tree) :
    (inheritNode? t.essence).map Tree.scalar = (inheritNode? t).map Tree.scalar := by
  have hnode : inheritNode? t.essence = (inheritNode? t).map Tree.essence := by
    rw [inheritNode?, inheritNode?, Tree.child?_essence]
    exact bind_child?_essence _ .literal
  rw [hnode]
  exact map_map_essence fun u hu =>
    Tree.scalar_essence (quotes_of_isNode (isNode_of_bind_child? hu) rfl)

/-- A block of fields has the name of the type of its field. -/
theorem typeName_essence (parent : Option Tree) :
    ((parent.map Tree.essence).bind (·.child? .fieldType)).bind Tree.identifier? =
      (parent.bind (·.child? .fieldType)).bind Tree.identifier? := by
  rw [bind_child?_essence]
  exact bind_map_essence fun u hu => Tree.identifier?_essence (isNode_of_bind_child? hu) (by decide)

section Opening

variable {naming : Naming} {source source' : List Char} {t : Tree}

theorem declaration_essence (c : Collection) (h : t.quotes = false) :
    (declaration ⟨naming, source'⟩ c t.essence).scope.node =
      (declaration ⟨naming, source⟩ c t).scope.node := by
  simp only [declaration, Tree.nameOrEmpty_essence, Tree.docOf_javadoc?_essence h,
    Tree.childWord?_essence t (rfl : NodeKind.tableName.quotes = false)]

theorem api_essence (h : t.quotes = false) :
    (api ⟨naming, source'⟩ t.essence).scope.node = (api ⟨naming, source⟩ t).scope.node := by
  simp only [api, Tree.nameOrEmpty_essence, Tree.docOf_javadoc?_essence h,
    Tree.childWord?_essence t (rfl : NodeKind.apiType.quotes = false),
    Tree.childWord?_essence t (rfl : NodeKind.apiRole.quotes = false)]

theorem plugin_essence (h : t.quotes = false) :
    (plugin ⟨naming, source'⟩ t.essence).scope.node = (plugin ⟨naming, source⟩ t).scope.node := by
  simp only [plugin, Tree.nameOrEmpty_essence, Tree.docOf_javadoc?_essence h, inherited_essence,
    Tree.child?_essence, Option.isSome_map]

theorem enumeration_essence (h : t.quotes = false) :
    (enumeration ⟨naming, source'⟩ t.essence).scope.node =
      (enumeration ⟨naming, source⟩ t).scope.node := by
  simp only [enumeration, Tree.nameOrEmpty_essence, Tree.docOf_javadoc?_essence h]

theorem service_essence (h : t.quotes = false) :
    (service ⟨naming, source'⟩ t.essence).scope.node = (service ⟨naming, source⟩ t).scope.node := by
  simp only [service, Tree.nameOrEmpty_essence, Tree.docOf_javadoc?_essence h,
    aggregateNames_essence]

theorem legacyService_essence :
    (legacyService ⟨naming, source'⟩ t.essence).scope.node =
      (legacyService ⟨naming, source⟩ t).scope.node := by
  simp only [legacyService, Tree.nameOrEmpty_essence, aggregateNames_essence]

theorem aggregate_essence (h : t.quotes = false) :
    (aggregate ⟨naming, source'⟩ t.essence).scope.node =
      (aggregate ⟨naming, source⟩ t).scope.node := by
  simp only [aggregate, Tree.nameOrEmpty_essence, Tree.docOf_javadoc?_essence h,
    Tree.childWord?_essence t (rfl : NodeKind.aggregateRoot.quotes = false)]

theorem nestedField_essence (home : Home) {options options' : Members} (hsame : options' = options)
    (block : Tree) (h : t.quotes = false) :
    (nestedField ⟨naming, source'⟩ (home.scope options') t.essence block.essence).scope.node =
      (nestedField ⟨naming, source⟩ (home.scope options) t block).scope.node := by
  have htype := typeName_essence (some t)
  simp only [Option.map_some, Option.bind_some] at htype
  simp only [nestedField, hsame, htype, Tree.docOf_javadoc?_essence h,
    Tree.childWord?_essence t (rfl : NodeKind.tableName.quotes = false)]

/-- How a construct begins is read off the essence, spans apart. -/
theorem opening_essence {within kind : NodeKind} (home : Option Home) (parent : Option Tree)
    (hkind : t.isNode kind = true) (hshaped : Shaped within t)
    (hblock : kind = .nestedField → ∀ owner ∈ parent, owner.quotes = false) :
    (opening ⟨naming, source'⟩ home (parent.map Tree.essence) kind t.essence).map (·.scope.node) =
      (opening ⟨naming, source⟩ home parent kind t).map (·.scope.node) := by
  cases kind
  case api => exact congrArg some (api_essence (quotes_of_isNode hkind rfl))
  case plugin => exact congrArg some (plugin_essence (quotes_of_isNode hkind rfl))
  case entity | input | output | event =>
    exact congrArg some (declaration_essence _ (quotes_of_isNode hkind rfl))
  case enumeration => exact congrArg some (enumeration_essence (quotes_of_isNode hkind rfl))
  case service => exact congrArg some (service_essence (quotes_of_isNode hkind rfl))
  case legacyService => exact congrArg some legacyService_essence
  case aggregate => exact congrArg some (aggregate_essence (quotes_of_isNode hkind rfl))
  case field =>
    rw [opening, opening, Option.map_map, Option.map_map]
    exact Option.map_congr fun _ _ => fieldMembers_essence hshaped hkind
  case nestedField =>
    cases parent with
    | none => rfl
    | some owner =>
        cases home with
        | none => rfl
        | some home =>
            have hoptions := congrArg Dict.ofList (notesIn_distilled (distilled_children owner))
            exact congrArg some (nestedField_essence home hoptions t (hblock rfl owner rfl))
  case serviceMethod =>
    rw [opening, opening, Option.map_map, Option.map_map]
    refine Option.map_congr fun _ _ => ?_
    simp only [Function.comp_apply, serviceMethod, operation, ownerName_essence]
    exact methodMembers_essence _ (quotes_of_isNode hkind rfl)
  case aggregateCommand =>
    rw [opening, opening, Option.map_map, Option.map_map]
    refine Option.map_congr fun _ _ => ?_
    simp only [Function.comp_apply, aggregateCommand, operation, ownerName_essence]
    exact commandMembers_essence _ (quotes_of_isNode hkind rfl)
  all_goals rfl

end Opening

/-! ### What is stored -/

namespace Direct

/-- A construct that is stored, with what has a meaning alone. -/
def Site.essence (s : Site) : Site :=
  { s with parent := s.parent.map Tree.essence, node := s.node.essence }

theorem siteOf_essence (within : Option Collection) (parent : Option Tree) (kind : NodeKind)
    (t : Tree) : siteOf within (parent.map Tree.essence) kind t.essence =
      (siteOf within parent kind t).map Site.essence := by
  rw [siteOf, siteOf, List.map_map]
  rfl

theorem sitesBefore_essence (t : Tree) : ∀ (within : Option Collection) (parent : Option Tree),
    sitesBefore within (parent.map Tree.essence) t.essence =
      (sitesBefore within parent t).map Site.essence := by
  induction t using Tree.induct with
  | leaf => exact fun _ _ => rfl
  | node kind children ih =>
      intro within parent
      have hinside := (distilled_children (.node kind children)).flatMap (fun _ => rfl)
        (fun _ => rfl) fun u hu =>
          ih u hu ((collectionOf within kind).or within) (some (.node kind children))
      have hhere := siteOf_essence within parent kind (.node kind children)
      rw [Tree.essence] at hinside hhere ⊢
      rw [sitesBefore, sitesBefore, List.map_append, sitesBeforeAll_eq, sitesBeforeAll_eq]
      exact congrArg₂ (· ++ ·) hhere hinside

theorem sitesAfter_essence (t : Tree) : ∀ (within : Option Collection) (parent : Option Tree),
    sitesAfter within (parent.map Tree.essence) t.essence =
      (sitesAfter within parent t).map Site.essence := by
  induction t using Tree.induct with
  | leaf => exact fun _ _ => rfl
  | node kind children ih =>
      intro within parent
      have hinside := (distilled_children (.node kind children)).flatMap (fun _ => rfl)
        (fun _ => rfl) fun u hu =>
          ih u hu ((collectionOf within kind).or within) (some (.node kind children))
      have hhere := siteOf_essence within parent kind (.node kind children)
      rw [Tree.essence] at hinside hhere ⊢
      rw [sitesAfter, sitesAfter, List.map_append, sitesAfterAll_eq, sitesAfterAll_eq]
      exact congrArg₂ (· ++ ·) hinside hhere

/-- A block of fields stands in a field, and that quotes nothing. -/
theorem quotes_owner (t : Tree) : ∀ {within : NodeKind} {inside : Option Collection}
    {parent : Option Tree}, Shaped within t →
    (t.kind? = some .nestedField → ∀ owner ∈ parent, owner.quotes = false) →
    ∀ s ∈ sitesAfter inside parent t, s.kind = .nestedField → ∀ owner ∈ s.parent,
      owner.quotes = false := by
  induction t using Tree.induct with
  | leaf => exact fun _ _ _ hs => nomatch hs
  | node kind children ih =>
      intro within inside parent hshaped hhere s hs hblock
      rw [sitesAfter, List.mem_append, sitesAfterAll_eq, List.mem_flatMap] at hs
      rcases hs with ⟨t, ht, hs⟩ | hs
      · cases hshaped with
        | node hholds _ _ hparts =>
        refine ih t ht (hparts t ht) (fun hkind owner howner => ?_) s hs hblock
        obtain rfl := Option.some.inj howner
        have hfield := NodeKind.holds_subset
          (hholds .nestedField (List.mem_filterMap.mpr ⟨t, ht, hkind⟩))
        revert hfield
        cases kind <;> first
          | exact fun _ => rfl
          | exact fun h => absurd h (by decide)
      · obtain ⟨c, -, rfl⟩ := List.mem_map.mp hs
        exact hhere (congrArg some hblock)

theorem Site.name_essence (s : Site) : s.essence.name = s.name := by
  obtain ⟨c, parent, kind, node⟩ := s
  cases kind
  case nestedField => exact congrArg (·.getD "") (typeName_essence parent)
  all_goals exact Tree.nameOrEmpty_essence node

theorem Site.value_essence {naming : Naming} (source source' : List Char) {s : Site} (h : s.Proper)
    (hblock : s.kind = .nestedField → ∀ owner ∈ s.parent, owner.quotes = false) :
    s.essence.value ⟨naming, source'⟩ = s.value ⟨naming, source⟩ := by
  obtain ⟨c, parent, kind, node⟩ := s
  obtain ⟨hkind, ⟨within, hshaped⟩, -, -⟩ := h
  have hopening :
      (opening ⟨naming, source'⟩ (some ⟨"", c⟩) (parent.map Tree.essence) kind node.essence).map
          (·.scope.node) =
        (opening ⟨naming, source⟩ (some ⟨"", c⟩) parent kind node).map (·.scope.node) :=
    opening_essence (some ⟨"", c⟩) parent (beq_iff_eq.mpr hkind) hshaped hblock
  have hslots := slots_essence hshaped kind
  rw [Site.value, Site.value]
  simp only [Site.essence]
  cases ho : opening ⟨naming, source⟩ (some ⟨"", c⟩) parent kind node with
  | some o =>
      rw [ho] at hopening
      obtain ⟨o', ho', hnode⟩ := Option.map_eq_some_iff.mp hopening
      have hnode : o'.scope.node = o.scope.node := hnode
      rw [ho']
      simp only [finished, hslots, hnode]
  | none =>
      rw [ho] at hopening
      rw [Option.map_eq_none_iff.mp hopening]
      cases kind
      case legacyConstant => exact congrArg Prod.snd (constantEntry_essence node)
      case configOption => exact congrArg Prod.snd (settingEntry_essence node)
      all_goals
        refine congrArg Prod.snd ?_
        rw [filter_map_essence (Tree.isNode_essence .policies)]
        exact policyEntry_essence _ node

theorem names_essence (c : Collection) (t : Tree) : names c t.essence = names c t := by
  have hsites : sitesBefore none none t.essence = (sitesBefore none none t).map Site.essence :=
    sitesBefore_essence t none none
  rw [names, names, hsites, List.filter_map, List.map_map]
  exact List.map_congr_left fun s _ => s.name_essence

theorem entries_essence {naming : Naming} (source source' : List Char) {within : NodeKind}
    {t : Tree} (hshaped : Shaped within t) (hroot : t.kind? ≠ some .nestedField) (c : Collection) :
    entries ⟨naming, source'⟩ c t.essence = entries ⟨naming, source⟩ c t := by
  have hsites : sitesAfter none none t.essence = (sitesAfter none none t).map Site.essence :=
    sitesAfter_essence t none none
  rw [entries, entries, hsites, List.filter_map, List.map_map]
  refine List.map_congr_left fun s hs => ?_
  have hs : s ∈ sitesAfter none none t := (List.mem_filter.mp hs).1
  have hproper : s.Proper := proper_of_mem hshaped hs
  have hblock := quotes_owner t hshaped (fun h => absurd h hroot) s hs
  exact Prod.ext s.name_essence (Site.value_essence source source' hproper hblock)

/-! ### The document -/

theorem found_essence {α : Type} {pick pick' : Option Tree → NodeKind → Tree → List α}
    (h : ∀ parent kind t, t.isNode kind = true →
      pick' (parent.map Tree.essence) kind t.essence = pick parent kind t) (t : Tree) :
    ∀ parent, found pick' (parent.map Tree.essence) t.essence = found pick parent t := by
  induction t using Tree.induct with
  | leaf => exact fun _ => rfl
  | node kind children ih =>
      intro parent
      have hinside := (distilled_children (.node kind children)).flatMap (fun _ => rfl)
        (fun _ => rfl) fun u hu => (ih u hu (some (.node kind children))).trans (List.map_id _).symm
      have hhere := h parent kind (.node kind children) (beq_self_eq_true _)
      rw [Tree.essence] at hinside hhere ⊢
      rw [found, found, foundAll_eq, foundAll_eq]
      exact congrArg₂ (· ++ ·) hhere (hinside.trans (List.map_id _))

theorem map_found {α β : Type} (g : α → β) (pick : Option Tree → NodeKind → Tree → List α)
    (t : Tree) : ∀ parent, (found pick parent t).map g =
      found (fun parent kind t => (pick parent kind t).map g) parent t := by
  induction t using Tree.induct with
  | leaf => exact fun _ => rfl
  | node kind children ih =>
      intro parent
      rw [found, found, foundAll_eq, foundAll_eq, List.map_append, List.map_flatMap]
      exact congrArg (_ ++ ·) (List.flatMap_congr fun u hu => ih u hu _)

theorem imports_essence (t : Tree) : found importsOf none t.essence = found importsOf none t := by
  refine found_essence (fun parent kind t _ => ?_) t none
  cases kind
  case importStatement =>
    rw [importsOf, importsOf, Tree.literal?_essence]
    cases hliteral : t.literal? with
    | none => rfl
    | some literal =>
        exact congrArg (fun text => [Value.string text])
          (Tree.bareText_essence (Tree.quotes_of_literal? hliteral))
  all_goals rfl

theorem comments_essence (t : Tree) :
    found commentsOf none t.essence = found commentsOf none t := by
  refine found_essence (fun parent kind t hkind => ?_) t none
  cases kind
  case globalJavadoc =>
    rw [commentsOf, commentsOf, Tree.word?_essence (quotes_of_isNode hkind rfl)]
  all_goals rfl

/-- The relationships at a node, without their spans. -/
def unplacedOf (input : BuildInput) (parent : Option Tree) (kind : NodeKind) (t : Tree) :
    List Build.Relation :=
  (relationsOf input parent kind t).map Relation.unplaced

theorem unplacedOf_essence (input input' : BuildInput) (parent : Option Tree) (kind : NodeKind)
    (t : Tree) :
    unplacedOf input' (parent.map Tree.essence) kind t.essence =
      unplacedOf input parent kind t := by
  cases kind
  case relationship =>
    rw [unplacedOf, unplacedOf, relationsOf, relationsOf,
      filter_map_essence (Tree.isNode_essence .relationshipGroup)]
    exact congrArg (fun r => [r]) (relation_essence input input' _ t)
  all_goals rfl

/-- Relationships are stored without their spans. -/
theorem relationships_essence (input input' : BuildInput) (t : Tree) :
    (found (relationsOf input') none t.essence).foldl Members.relate [] =
      (found (relationsOf input) none t).foldl Members.relate [] := by
  have hunplaced (input : BuildInput) (t : Tree) :
      (found (relationsOf input) none t).foldl Members.relate [] =
        (found (unplacedOf input) none t).foldl Members.relate [] := by
    have hmap : found (unplacedOf input) none t = _ := (map_found Relation.unplaced _ t none).symm
    rw [hmap, List.foldl_map]
    rfl
  have hfound : found (unplacedOf input') none t.essence = found (unplacedOf input) none t :=
    found_essence (fun parent kind t _ => unplacedOf_essence input input' parent kind t) t none
  rw [hunplaced, hunplaced, hfound]

/-- **A document is read off the essence of its tree**, whatever the source text. -/
theorem document_essence {naming : Naming} (source source' : List Char) {within : NodeKind}
    {t : Tree} (hshaped : Shaped within t) (hroot : t.kind? ≠ some .nestedField) :
    document ⟨naming, source'⟩ t.essence = document ⟨naming, source⟩ t := by
  refine Document.eq_of (imports_essence t) (fun c => ?_)
    (congrArg List.getLast? (comments_essence t)) rfl
  rw [document_collection, document_collection]
  by_cases hc : c = .relationships
  · subst hc
    exact relationships_essence ⟨naming, source⟩ ⟨naming, source'⟩ t
  · have harrange : Dict.arrange (names c t.essence) (entries ⟨naming, source'⟩ c t.essence) =
        Dict.arrange (names c t) (entries ⟨naming, source⟩ c t) := by
      rw [names_essence, entries_essence source source' hshaped hroot]
    cases c <;> first
      | exact harrange
      | exact absurd rfl hc

end Direct

end DomainModel
