/-
No mapping of a document has a key twice.

Whatever a text repeats, a document keeps it once.  The mappings that are written in a text,
the options of a construct and its members are all filled entry by entry (`tidy_noted`,
`tidy_entriesOf`), and so are collections; the other mappings are rows of fixed keys.
-/
import DomainModel.Proofs.Build.Schema
import DomainModel.Proofs.Tree.Questions
import DomainModel.Proofs.Value.Same

namespace DomainModel

open Value (Tidy tidy_ofList tidy_map tidy_list tidy_ofString?)

/-! ### Written values -/

namespace Tree

theorem tidy_word (text : String) : (Literal.word text).Tidy := by
  rw [Literal.word]
  split
  · exact .bool true
  · split
    · exact .bool false
    · exact .string text

theorem tidy_parse {kind : TokenKind} {text : String} {v : Value}
    (h : Literal.parse kind text = .ok v) : v.Tidy := by
  unfold Literal.parse at h
  split at h
  · obtain rfl := Except.ok.inj h
    exact .string _
  · split at h
    · obtain rfl := Except.ok.inj h
      exact .int _
    · cases h
  · split at h
    · obtain rfl := Except.ok.inj h
      exact .decimal _
    · cases h
  · obtain rfl := Except.ok.inj h
    exact tidy_word text

theorem tidy_scalarOf (ts : List Tree) : (scalarOf ts).Tidy := by
  rw [scalarOf]
  split
  · exact .null
  · split
    · rename_i h
      exact tidy_parse h
    · exact .string _

@[simp] theorem tidy_scalar (t : Tree) : t.scalar.Tidy := tidy_scalarOf t.children

theorem tidy_pairedValue {ts : List Tree} (h : ∀ t ∈ ts, ∀ v ∈ value? t, v.Tidy) :
    (pairedValue ts).Tidy := by
  induction ts with
  | nil => exact .bool true
  | cons t ts ih =>
      obtain ⟨hfirst, hrest⟩ := List.forall_mem_cons.mp h
      cases t with
      | leaf => exact ih hrest
      | node kind children =>
          rw [pairedValue]
          cases hvalue : value? (.node kind children) with
          | none => exact .bool true
          | some v => exact hfirst v hvalue

theorem tidy_keyed {ts : List Tree} (h : ∀ t ∈ ts, ∀ v ∈ value? t, v.Tidy) :
    ∀ e ∈ keyed ts, e.2.Tidy := by
  induction ts with
  | nil => exact fun e he => absurd he.symm (Option.some_ne_none e)
  | cons t ts ih =>
      obtain ⟨-, hrest⟩ := List.forall_mem_cons.mp h
      intro e he
      cases t with
      | leaf => exact ih hrest e he
      | node kind children =>
          cases kind <;> first
            | exact absurd he.symm (Option.some_ne_none e)
            | obtain rfl := Option.some.inj he
              exact tidy_pairedValue hrest

/-- Objects are tidy, whatever is written in them, since they are filled pair by pair. -/
theorem tidy_read (t : Tree) : (∀ v ∈ value? t, v.Tidy) ∧ ∀ e ∈ pair? t, e.2.Tidy := by
  induction t using Tree.induct with
  | leaf =>
      exact ⟨fun v hv => absurd hv.symm (Option.some_ne_none v),
        fun e he => absurd he.symm (Option.some_ne_none e)⟩
  | node kind children ih =>
      have hvalues : ∀ t ∈ children, ∀ v ∈ value? t, v.Tidy := fun t ht => (ih t ht).1
      constructor
      · intro v hv
        cases kind <;> first
          | exact absurd hv.symm (Option.some_ne_none v)
          | obtain rfl := Option.some.inj hv
        case literal => exact tidy_scalarOf children
        case object =>
          refine tidy_ofList fun e he => ?_
          rw [pairsIn_eq] at he
          obtain ⟨t, ht, hpair⟩ := List.mem_filterMap.mp he
          exact (ih t ht).2 e hpair
        case array =>
          refine .list fun w hw => ?_
          rw [valuesIn_eq] at hw
          obtain ⟨t, ht, hvalue⟩ := List.mem_filterMap.mp hw
          exact (ih t ht).1 w hvalue
      · intro e he
        cases kind <;> first
          | exact absurd he.symm (Option.some_ne_none e)
          | exact tidy_keyed hvalues e he

theorem tidy_complexValue (t : Tree) : t.complexValue.Tidy := by
  rw [complexValue]
  split
  · rename_i v h
    obtain ⟨u, -, hvalue⟩ := List.exists_of_findSome?_eq_some h
    exact (tidy_read u).1 v hvalue
  · split
    · exact .list (List.forall_mem_map.mpr fun u _ => tidy_scalar u)
    · split
      · rename_i pairs _
        refine tidy_ofList fun e he => ?_
        rw [pairsIn_eq] at he
        obtain ⟨u, -, hpair⟩ := List.mem_filterMap.mp he
        exact (tidy_read u).2 e hpair
      · exact .bool true

@[simp] theorem tidy_annotationValue (t : Tree) : t.annotationValue.Tidy := by
  rw [annotationValue]
  cases t.argumentNode? with
  | none => exact .bool true
  | some argument => exact tidy_complexValue argument

@[simp] theorem tidy_settingValue (t : Tree) : t.settingValue.Tidy := by
  rw [settingValue]
  cases t.argumentNode? with
  | none => exact .null
  | some argument => exact tidy_complexValue argument

end Tree

/-! ### Members of constructs -/

/-- A literal that may be missing. -/
@[simp] theorem tidy_scalar? {v : Value} (hv : v.Tidy) (t : Option Tree) :
    ((t.map Tree.scalar).getD v).Tidy := by
  cases t with
  | none => exact hv
  | some t => exact Tree.tidy_scalar t

@[simp] theorem tidy_emptyMap : Value.emptyMap.Tidy := by simp [Value.emptyMap, Dict.keys]

@[simp] theorem tidy_emptyList : Value.emptyList.Tidy := by simp [Value.emptyList]

@[simp] theorem tidy_namedEntry {name : String} {v : Value} :
    (Build.namedEntry name v).Tidy ↔ v.Tidy := by
  simp [Build.namedEntry, Dict.keys]

theorem tidy_notesIn (ts : List Tree) : ∀ e ∈ Direct.notesIn ts, e.2.Tidy := by
  intro e he
  obtain ⟨t, -, hnote⟩ := List.mem_filterMap.mp he
  obtain ⟨name, -, rfl⟩ := Option.map_eq_some_iff.mp hnote
  exact Tree.tidy_annotationValue t

theorem tidy_noted (ts : List Tree) : ∀ e ∈ Direct.noted ts, e.2.Tidy := by
  rw [Direct.noted, List.forall_mem_cons, List.forall_mem_singleton, tidy_list,
    List.forall_mem_map]
  exact ⟨tidy_ofList (tidy_notesIn ts), fun e he => tidy_namedEntry.mpr (tidy_notesIn ts e he)⟩

theorem tidy_validationEntries (ts : List Tree) :
    (Value.map (Build.validationEntries ts)).Tidy := by
  refine tidy_ofList fun e he => ?_
  obtain ⟨t, -, hentry⟩ := List.mem_filterMap.mp he
  obtain ⟨name, -, rfl⟩ := Option.map_eq_some_iff.mp hentry
  exact tidy_namedEntry.mpr (.string _)

theorem tidy_checks (t : Tree) (ts : List Tree) : ∀ e ∈ Direct.checks t ts, e.2.Tidy := by
  rw [Direct.checks, List.forall_mem_singleton]
  refine Tidy.extend (tidy_validationEntries t.validations) fun e he => ?_
  obtain ⟨block, -, hblock⟩ := List.mem_flatMap.mp he
  exact (tidy_map.mp (tidy_validationEntries block.validations)).2 e hblock

theorem tidy_entriesOf {kind : NodeKind} {entry : Tree → String × Value}
    (h : ∀ t, (entry t).2.Tidy) (ts : List Tree) : (Direct.entriesOf kind entry ts).Tidy := by
  refine tidy_ofList fun e he => ?_
  obtain ⟨t, -, rfl⟩ := List.mem_map.mp he
  exact h t

theorem tidy_initialValue (t : Tree) : (Build.initialValueOf t).Tidy := by
  rw [Build.initialValueOf]
  split
  · exact .null
  · split
    · exact Tree.tidy_scalar _
    · exact Tree.tidy_word _

theorem tidy_fieldMembers (t : Tree) : (Value.map (Build.fieldMembers t)).Tidy := by
  have hchecks := tidy_map.mp (tidy_validationEntries t.validations)
  simpa [Build.fieldMembers, Dict.keys, tidy_initialValue] using hchecks

theorem tidy_fieldEntry (t : Tree) : (Direct.fieldEntry t).2.Tidy :=
  Tidy.extend (tidy_fieldMembers t)
    (List.forall_mem_append.mpr ⟨tidy_noted t.children, tidy_checks t t.children⟩)

theorem tidy_enumValueEntry (t : Tree) : (Direct.enumValueEntry t).2.Tidy := by
  simp [Direct.enumValueEntry, Dict.keys]

theorem tidy_eventsOf (t : Tree) : (Build.eventsOf t).Tidy := by
  refine tidy_list.mpr (List.forall_mem_map.mpr fun item _ => ?_)
  cases item with
  | single => exact .string _
  | group => exact .list (List.forall_mem_map.mpr fun _ _ => .string _)

theorem tidy_methodMembers (owner : String) (t : Tree) :
    (Value.map (Build.methodMembers owner t)).Tidy := by
  have hflag (b : Bool) {v : Value} (hv : v.Tidy) : (if b then v else .null).Tidy := by
    cases b
    · exact .null
    · exact hv
  simp [Build.methodMembers, Build.sharedMembers, Build.parameterMember, Dict.keys, tidy_eventsOf,
    hflag]

theorem tidy_commandMembers (owner : String) (t : Tree) :
    (Value.map (Build.commandMembers owner t)).Tidy := by
  simp [Build.commandMembers, Build.sharedMembers, Build.parameterMember, Dict.keys, tidy_eventsOf]

theorem tidy_crud (n : Naming) (service : String) (entities : List String) :
    (Value.map (Crud.methods n service entities)).Tidy := by
  have hrows (entity : String) : ∀ e ∈ Crud.methodsOf n service entity, e.2.Tidy := by
    simp [Crud.methodsOf, Crud.method, Crud.route, Dict.keys]
  refine tidy_ofList fun e he => ?_
  obtain ⟨entity, -, hmem⟩ := List.mem_flatMap.mp he
  exact hrows entity e hmem

/-! ### Constructs -/

theorem tidy_content (t : Tree) (kind : NodeKind) (ts : List Tree) :
    ∀ e ∈ Direct.content t kind ts, e.2.Tidy := by
  have hfields : ∀ ts, (Direct.entriesOf .field Direct.fieldEntry ts).Tidy :=
    tidy_entriesOf tidy_fieldEntry
  have hsettings (kind : NodeKind) : (Direct.entriesOf kind Build.settingEntry ts).Tidy :=
    tidy_entriesOf Tree.tidy_settingValue ts
  cases kind <;> first
    | exact fun e he => absurd he List.not_mem_nil
    | skip
  case api => exact List.forall_mem_singleton.mpr (hsettings _)
  case plugin =>
    exact List.forall_mem_cons.mpr ⟨hsettings _,
      List.forall_mem_singleton.mpr (tidy_entriesOf (fun _ => tidy_ofString? _) ts)⟩
  case entity | input | output | event | nestedField =>
    exact List.forall_mem_singleton.mpr (hfields _)
  case field => exact tidy_checks t ts
  case enumeration =>
    refine List.forall_mem_cons.mpr ⟨.bool _, List.forall_mem_singleton.mpr (tidy_ofList ?_)⟩
    exact List.forall_mem_map.mpr fun u _ => tidy_enumValueEntry u
  case service =>
    exact List.forall_mem_singleton.mpr
      (tidy_entriesOf (fun u => (tidy_methodMembers _ u).extend (tidy_noted u.children)) ts)
  case aggregate =>
    exact List.forall_mem_singleton.mpr
      (tidy_entriesOf (fun u => (tidy_commandMembers _ u).extend (tidy_noted u.children)) ts)

theorem tidy_slots (kind : NodeKind) (t : Tree) : ∀ e ∈ Direct.slots kind t, e.2.Tidy := by
  refine List.forall_mem_append.mpr ⟨?_, tidy_content t kind t.children⟩
  split
  · exact tidy_noted t.children
  · exact fun e he => absurd he List.not_mem_nil

theorem tidy_declarationMembers (n : Naming) (name : String) (c : Collection)
    (javadoc table : Option String) {options : Members} (h : (Value.map options).Tidy) :
    (Value.map (Build.declarationMembers n name c javadoc table options)).Tidy := by
  simpa [Build.declarationMembers, Dict.keys] using h

/-- Every construct begins with a tidy node. -/
theorem tidy_opening {input : BuildInput} {home : Option Direct.Home} {parent : Option Tree}
    {kind : NodeKind} {t : Tree} {o : Opening}
    (h : Direct.opening input home parent kind t = some o) : (Value.map o.scope.node).Tidy := by
  cases kind <;> first
    | exact absurd h.symm (Option.some_ne_none o)
    | obtain rfl := Option.some.inj h
    | obtain ⟨home, -, rfl⟩ := Option.map_eq_some_iff.mp h
    | skip
  case nestedField =>
    obtain ⟨owner, home, -, -, rfl⟩ := Direct.opening_block h
    refine tidy_declarationMembers _ _ _ _ _ (Tidy.extend ?_ ?_)
    · simp [Dict.keys]
    · exact (tidy_map.mp (tidy_ofList (tidy_notesIn owner.children))).2
  case entity | input | output | event => exact tidy_declarationMembers _ _ _ _ _ tidy_emptyMap
  case field => exact tidy_fieldMembers t
  case serviceMethod => exact tidy_methodMembers _ t
  case aggregateCommand => exact tidy_commandMembers _ t
  case legacyService =>
    have hmethods := tidy_map.mp (tidy_crud input.naming t.nameOrEmpty t.aggregateNames)
    simpa [Build.legacyService, Dict.keys] using hmethods
  all_goals
    simp [Build.api, Build.plugin, Build.enumeration, Build.service, Build.aggregate, Dict.keys]

/-- **What a construct stores is tidy.** -/
theorem tidy_site (input : BuildInput) (s : Direct.Site) : (s.value input).Tidy := by
  rw [Direct.Site.value]
  split
  · rename_i o ho
    exact (tidy_opening ho).extend (tidy_slots s.kind s.node)
  · split
    · exact .string _
    · exact Tree.tidy_settingValue s.node
    · simp [Build.policyEntry, Dict.keys]

/-! ### Relationships -/

theorem tidy_endValidation {t : Tree} {entry : String × Value}
    (h : Build.endValidation t = some entry) : entry.2.Tidy := by
  rw [Build.endValidation] at h
  split at h <;> first
    | exact absurd h.symm (Option.some_ne_none entry)
    | obtain rfl := Option.some.inj h
      first
        | exact .bool true
        | exact .string _

theorem tidy_endMembers (side : Build.Side) (e : Tree) :
    ∀ member ∈ Build.endMembers side e, member.2.Tidy := by
  simp only [Build.endMembers, List.forall_mem_cons, List.not_mem_nil, false_imp_iff, implies_true,
    and_true]
  refine ⟨.string _, tidy_ofString? _, tidy_ofString? _, tidy_ofList ?_, tidy_ofList ?_,
    tidy_ofString? _, .bool _⟩
  · intro member hmember
    obtain ⟨a, -, hnote⟩ := List.mem_filterMap.mp hmember
    obtain ⟨name, -, rfl⟩ := Option.map_eq_some_iff.mp hnote
    exact Tree.tidy_annotationValue a
  · intro member hmember
    obtain ⟨kept, hkept, rfl⟩ := List.mem_map.mp hmember
    obtain ⟨t, -, hcheck⟩ := List.mem_filterMap.mp hkept
    obtain ⟨entry, hentry, rfl⟩ := Option.map_eq_some_iff.mp hcheck
    exact tidy_namedEntry.mpr (tidy_endValidation hentry)

/-- A relationship is a row of fixed keys, with those of an end only where there is one. -/
theorem tidy_relation (input : BuildInput) (group : Option Tree) (t : Tree) :
    (Value.map (Build.relation input group t).node).Tidy := by
  have hmembers (side : Build.Side) (e : Option Tree) :
      ∀ member ∈ (e.map (Build.endMembers side)).getD [], member.2.Tidy := by
    cases e with
    | none => exact fun member hmember => absurd hmember List.not_mem_nil
    | some e => exact tidy_endMembers side e
  refine .map ?_ ?_
  · rw [Build.relation]
    cases Build.endOn t .origin <;> cases Build.endOn t .target <;>
      simp [Dict.keys, Build.endMembers, Build.Side.lower, Build.Side.upper]
  · rw [Build.relation, List.forall_mem_append, List.forall_mem_append]
    exact ⟨⟨by simp, hmembers .origin _⟩, hmembers .target _⟩

theorem tidy_relate {groups : Members} {r : Build.Relation} (h : (Value.map groups).Tidy)
    (hr : (Value.map r.node).Tidy) : (Value.map (groups.relate r)).Tidy := by
  have hreserved : (Value.map (Dict.reserve r.type .emptyMap groups)).Tidy := by
    rw [Dict.reserve]
    split
    · exact h
    · exact h.insert r.type tidy_emptyMap
  refine hreserved.modify r.type fun group hgroup => ?_
  cases group with
  | map group => exact hgroup.insert r.name hr
  | _ => exact hgroup

/-! ### Documents -/

theorem tidy_collection (input : BuildInput) {within : NodeKind} {t : Tree}
    (hshaped : Shaped within t) (c : Collection) :
    (Value.map ((Direct.draft input t).document.collection c)).Tidy := by
  by_cases hc : c = .relationships
  · subst hc
    rw [draft_document input hshaped, Direct.document_collection]
    have hfold : ∀ (rs : List Build.Relation), (∀ r ∈ rs, (Value.map r.node).Tidy) →
        ∀ groups : Members, (Value.map groups).Tidy →
          (Value.map (rs.foldl Members.relate groups)).Tidy := by
      intro rs
      induction rs with
      | nil => exact fun _ _ hgroups => hgroups
      | cons r rs ih =>
          intro hrs groups hgroups
          obtain ⟨hr, hrs⟩ := List.forall_mem_cons.mp hrs
          exact ih hrs _ (tidy_relate hgroups hr)
    refine hfold _ (fun r hr => ?_) [] tidy_emptyMap
    obtain ⟨parent, kind, u, hpick, -⟩ := mem_found t hshaped r hr
    cases kind <;> first
      | exact absurd hpick List.not_mem_nil
      | obtain rfl := List.mem_singleton.mp hpick
        exact tidy_relation input _ u
  · refine .map (arranged_collection input hshaped hc).nodup fun e he => ?_
    obtain ⟨s, -, -, -, hvalue⟩ := site_of_mem hshaped hc he
    exact hvalue ▸ tidy_site input s

/-- **No mapping of a document has a key twice.** -/
theorem tidy_draft (input : BuildInput) {within : NodeKind} {t : Tree} (hshaped : Shaped within t) :
    (Direct.draft input t).document.toValue.Tidy := by
  have hcollections := tidy_collection input hshaped
  have himports : ∀ v ∈ (Direct.draft input t).document.imports, v.Tidy := by
    rw [draft_document input hshaped]
    intro v hv
    obtain ⟨parent, kind, u, hpick, -⟩ := mem_found t hshaped v hv
    cases kind <;> first
      | exact absurd hpick List.not_mem_nil
      | obtain ⟨literal, -, rfl⟩ := List.mem_map.mp hpick
        exact .string _
  have hview : (Direct.draft input t).document.allEntitiesAndEnums = none := by
    rw [draft_document input hshaped]
    rfl
  refine (Document.alike_toValue.mpr ⟨?_, fun c => (hcollections c).alike, rfl, ?_⟩).left
  · exact List.forall₂_same.mpr fun v hv => (himports v hv).alike
  · rw [hview]
    exact .none

end DomainModel
