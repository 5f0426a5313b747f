/-
Problems are located where their values are written.

A problem is a reference that does not fit, so where it is located is a question about
references.  Each is a word of the text, and the part that bears it is recorded for its path;
the lemmas below say so use by use.  Only the methods that a service without a body gets have
no parts, as nobody wrote them.  And the type of a field whose name is declared again has a part,
but its path may lead to that of another field (`Redeclared`).
-/
import DomainModel.Proofs.Build.Events
import DomainModel.Proofs.Build.Redeclared
import DomainModel.Proofs.Build.Relationships
import DomainModel.Proofs.Check.Validation

namespace DomainModel

open Direct
open Grammar (needed needs)
open DomainModel.Path (Under steps)
open References (named namedOrEmpty)

/-! ### Operations -/

namespace Path

theorem numbered_append (front back : String) (place : List Nat) :
    numbered (front ++ back) place = front ++ numbered back place := by
  induction place generalizing back with
  | nil => rfl
  | cons n ns ih => rw [numbered, numbered, ← ih, String.append_assoc, String.append_assoc,
      String.append_assoc]

theorem intercalate_numbered {base : List String} (h : base ≠ []) (place : List Nat) :
    ".".intercalate (base ++ place.map toString) = numbered (".".intercalate base) place := by
  induction place generalizing base with
  | nil => simp [numbered]
  | cons n ns ih =>
      have hbase : base ++ (n :: ns).map toString = (base ++ [toString n]) ++ ns.map toString := by
        simp
      rw [hbase, ih (by simp), Path.intercalate_concat h, numbered, String.append_assoc]

end Path

/-- The kinds of nodes that take a parameter and lead to events. -/
def operationKinds : List NodeKind := [.serviceMethod, .aggregateCommand]

section
variable {naming : Naming} {source : String} {c : Collection} {name : String} {s : Site}

theorem records_operation {input : BuildInput} {home : Home} {kind : NodeKind}
    (hkind : kind ∈ operationKinds) {u : Tree} {o : Opening}
    (ho : opening input (some home) none kind u = some o) :
    ∃ front, o.records = front ++ Build.operationRecords input o.scope.path u := by
  rcases List.mem_pair.mp hkind with rfl | rfl
  · obtain rfl := Option.some.inj ho
    exact ⟨[_], rfl⟩
  · obtain rfl := Option.some.inj ho
    exact ⟨[], rfl⟩

theorem getString?_of_get? {v : Value} {key : String} {text : Option String}
    (h : v.get? key = some (.ofString? text)) : v.getString? key = text := by
  rw [Value.getString?, h]
  cases text <;> rfl

theorem memberKinds_of_operation {kind : NodeKind} (h : kind ∈ operationKinds) :
    kind ∈ memberKinds ∧ kind ≠ .field := by
  revert h
  cases kind <;> decide

/-- An operation is a method of a service or a command of an aggregate. -/
theorem operation_cases {t : Tree} {kind : NodeKind} {m : MemberSlot}
    (hm : m ∈ memberSlots t kind) (hkind : m.kind ∈ operationKinds) :
    kind = .service ∧ m = ⟨"methods", .serviceMethod, methodEntry (some t)⟩ ∨
      kind = .aggregate ∧ m = ⟨"commands", .aggregateCommand, commandEntry (some t)⟩ := by
  obtain ⟨hmember, hfield⟩ := memberKinds_of_operation hkind
  rcases memberSlots_cases hm hmember with ⟨-, rfl⟩ | hoperation
  · exact absurd rfl hfield
  · exact hoperation

/-- What a document says of the parameter and of the events of an operation. -/
theorem get?_operation {t u : Tree} {kind : NodeKind} {m : MemberSlot}
    (hm : m ∈ memberSlots t kind) (hkind : m.kind ∈ operationKinds) :
    (m.entry u).2.getString? "parameter" = (Build.parameterNode? u).bind Tree.word? ∧
      (m.entry u).2.get? "withEvents" = some (Build.eventsOf u) := by
  rcases operation_cases hm hkind with ⟨-, rfl⟩ | ⟨-, rfl⟩ <;>
    exact ⟨getString?_of_get? (get?_noted (by decide) (by decide)),
      get?_noted (by decide) (by decide)⟩

/-- What a document refers to as an event has a place in the list. -/
theorem mem_events {base : List String} {v : Value} {u : Tree}
    (h : v.get? "withEvents" = some (Build.eventsOf u)) {r : Reference}
    (hr : r ∈ References.events base v) :
    ∃ list, u.child? .withEvents = some list ∧ ∃ place event,
      (place, event) ∈ Build.eventPlaces list.eventEntries ∧
      (∃ entry ∈ list.eventEntries, event ∈ entry.events) ∧
      r = ⟨.event, base ++ ["withEvents"] ++ place.map toString, event.word?.getD ""⟩ := by
  rw [References.events, Value.itemsAt_eq h] at hr
  cases hlist : u.child? .withEvents with
  | none =>
      rw [hlist] at hr
      exact absurd hr List.not_mem_nil
  | some list =>
      rw [hlist, Option.map_some, Option.getD_some, List.zipIdx_map, List.flatMap_map] at hr
      obtain ⟨⟨entry, i⟩, hentry, hr⟩ := List.mem_flatMap.mp hr
      have hindex : list.eventEntries[i]? = some entry := List.mk_mem_zipIdx_iff_getElem?.mp hentry
      have hmem : entry ∈ list.eventEntries := List.fst_mem_of_mem_zipIdx hentry
      refine ⟨list, rfl, ?_⟩
      cases entry with
      | single node =>
          obtain rfl := List.mem_singleton.mp hr
          refine ⟨[i], node, mem_eventPlaces.mpr ⟨i, _, hindex, .inl ⟨rfl, rfl⟩⟩,
            ⟨_, hmem, List.mem_singleton_self _⟩, ?_⟩
          simp [Build.eventValue, Build.eventName, Value.string?]
      | group node alternatives =>
          have hgroup : r ∈ (alternatives.map Build.eventName).zipIdx.map fun inner =>
              (⟨.event, base ++ ["withEvents", toString i] ++ [toString inner.2],
                inner.1.string?.getD ""⟩ : Reference) := hr
          rw [List.zipIdx_map, List.map_map] at hgroup
          obtain ⟨⟨event, j⟩, hevent, rfl⟩ := List.mem_map.mp hgroup
          have hplace : alternatives[j]? = some event := List.mk_mem_zipIdx_iff_getElem?.mp hevent
          refine ⟨[i, j], event, mem_eventPlaces.mpr ⟨i, _, hindex, .inr ⟨j, rfl, hplace⟩⟩,
            ⟨_, hmem, List.fst_mem_of_mem_zipIdx hevent⟩, ?_⟩
          simp [Build.eventName, Value.string?]

variable {m : MemberSlot} {u : Tree}
/-- The parameter of an operation stands where its path leads. -/
theorem quotes_parameter (h : SettledMember source c name s m u) (hkind : m.kind ∈ operationKinds) :
    ∀ r ∈ named .parameter [c.key, name, m.slot, u.nameOrEmpty] (m.entry u).2 "parameter",
      (Direct.model naming source).Quotes source r.path r.name := by
  intro r hr
  obtain ⟨hmember, hfield⟩ := memberKinds_of_operation hkind
  obtain ⟨-, -, hpiece, within, hshaped⟩ := dotless_member (kept?_mem h.kept) h.mem
  rw [named, (get?_operation h.slot hkind).1, Option.mem_toList, Option.map_eq_some_iff] at hr
  obtain ⟨type, htype, rfl⟩ := hr
  obtain ⟨part, hpart, hword⟩ := Option.bind_eq_some_iff.mp htype
  obtain ⟨params, hparams, hchild⟩ := Option.bind_eq_some_iff.mp hpart
  have hmem := (Tree.child?_spec hparams).1
  obtain ⟨_, hinner⟩ := hshaped.child hmem
  obtain ⟨name', hname', hbears⟩ := bears_child (hpiece.child hmem) hinner (by decide) hchild
  obtain rfl : name' = type := by
    rw [Tree.childWord?, hchild, Option.bind_some, hword] at hname'
    exact (Option.some.inj hname').symm
  rw [Reference.path, Path.intercalate_concat (List.cons_ne_nil _ _), ← String.append_assoc]
  refine quotes_member h hmember (fun h => absurd h hfield) hbears fun home o ho _ span hspan => ?_
  obtain ⟨front, hrecords⟩ := records_operation hkind ho
  have htail : o.scope.path ++ "." ++ "parameter" = o.scope.path ++ ".parameter" :=
    String.append_assoc ..
  rw [hrecords, htail]
  refine Records.span?_of_back (Records.span?_of_back ?_)
  simp [Records.span?, hpart, hspan]

/-- Every event of an operation bears its name. -/
theorem bears_events (h : SettledMember source c name s m u) {list : Tree}
    (hlist : u.child? .withEvents = some list) : ∀ entry ∈ list.eventEntries,
      ∀ event ∈ entry.events, ∃ word, event.word? = some word ∧ IsEventName word ∧
        Bears source event word := by
  intro entry hentry event hevent
  obtain ⟨-, -, hpiece, -⟩ := dotless_member (kept?_mem h.kept) h.mem
  obtain ⟨hevent, kind, word, rfl, hident⟩ :=
    event_word (hpiece.child? _ list hlist) (Tree.child?_spec hlist).2 hentry hevent
  exact bears_event hevent hident

/-- The numbers of an event of an operation lead to the event. -/
theorem location?_event (h : SettledMember source c name s m u) (hkind : m.kind ∈ operationKinds)
    {list event : Tree} (hlist : u.child? .withEvents = some list) {place : List Nat}
    (hplace : (place, event) ∈ Build.eventPlaces list.eventEntries) {span : Span}
    (hspan : BuildInput.locate ⟨naming, source.toList⟩ (some event) = some span) :
    (Direct.model naming source).location? (Path.numbered
      (".".intercalate [c.key, name, m.slot, u.nameOrEmpty] ++ ".withEvents") place) =
        some span := by
  obtain ⟨hmember, hfield⟩ := memberKinds_of_operation hkind
  have htail : ∀ path : String, Path.numbered (path ++ ".withEvents") place =
      path ++ "." ++ Path.numbered "withEvents" place := by
    intro path
    rw [String.append_assoc, ← Path.numbered_append, ← Path.numbered_append]
    rfl
  rw [htail]
  refine location?_below h hmember (fun h => absurd h hfield) fun home o ho hne => ?_
  obtain ⟨front, hrecords⟩ := records_operation hkind ho
  rw [hrecords, ← htail]
  refine Records.span?_of_back (span?_event hne hlist (fun entry hentry event hevent => ?_)
    hplace hspan)
  obtain ⟨word, hword, hname, -⟩ := bears_events h hlist entry hentry event hevent
  rw [hword]
  exact hname

/-- The events of an operation stand where their paths lead. -/
theorem quotes_events (h : SettledMember source c name s m u) (hkind : m.kind ∈ operationKinds) :
    ∀ r ∈ References.events [c.key, name, m.slot, u.nameOrEmpty] (m.entry u).2,
      (Direct.model naming source).Quotes source r.path r.name := by
  intro r hr
  obtain ⟨list, hlist, place, event, hplace, ⟨entry, hentry, hevent⟩, rfl⟩ :=
    mem_events (get?_operation h.slot hkind).2 hr
  obtain ⟨word, hword, -, hbears⟩ := bears_events h hlist entry hentry event hevent
  have hjoin : ".".intercalate ([c.key, name, m.slot, u.nameOrEmpty] ++ ["withEvents"] ++
      place.map toString) = Path.numbered
        (".".intercalate [c.key, name, m.slot, u.nameOrEmpty] ++ ".withEvents") place := by
    rw [Path.intercalate_numbered (by simp), Path.intercalate_concat (List.cons_ne_nil _ _)]
    rfl
  rw [Reference.path, hjoin, hword]
  exact hbears.quotes naming fun span hspan => location?_event h hkind hlist hplace hspan

/-- What a method returns stands where its path leads. -/
theorem quotes_result (h : SettledMember source c name s m u) (hkind : m.kind = .serviceMethod) :
    ∀ r ∈ named .result [c.key, name, m.slot, u.nameOrEmpty] (m.entry u).2 "returnType",
      (Direct.model naming source).Quotes source r.path r.name := by
  intro r hr
  obtain ⟨-, -, hpiece, -⟩ := dotless_member (kept?_mem h.kept) h.mem
  have hoperation : m.kind ∈ operationKinds := by
    rw [hkind]
    decide
  obtain ⟨hmember, hfield⟩ := memberKinds_of_operation hoperation
  have hresult : (m.entry u).2.getString? "returnType" =
      (u.child? .methodReturn).bind Tree.identifier? := by
    rcases operation_cases h.slot hoperation with ⟨-, rfl⟩ | ⟨-, rfl⟩
    · exact getString?_of_get? (get?_noted (by decide) (by decide))
    · exact nomatch hkind
  rw [named, hresult, Option.mem_toList, Option.map_eq_some_iff] at hr
  obtain ⟨type, htype, rfl⟩ := hr
  obtain ⟨part, hpart, hword⟩ := Option.bind_eq_some_iff.mp htype
  obtain ⟨token, htoken, rfl⟩ := Option.map_eq_some_iff.mp hword
  have hbears : Bears source part token.text := by
    refine bears_token (hpiece.child? _ part hpart) (Tree.mem_leaves ?_)
    exact (Tree.childToken?_spec htoken).1
  rw [Reference.path, Path.intercalate_concat (List.cons_ne_nil _ _), ← String.append_assoc]
  refine quotes_member h hmember (fun h => absurd h hfield) hbears
    fun home o ho hne span hspan => ?_
  have hrecords : o.records = [(o.scope.path ++ ".returnType",
      BuildInput.locate ⟨naming, source.toList⟩ (u.child? .methodReturn))] ++
        Build.operationRecords ⟨naming, source.toList⟩ o.scope.path u := by
    rw [hkind] at ho
    obtain rfl := Option.some.inj ho
    rfl
  have htail : o.scope.path ++ "." ++ "returnType" = o.scope.path ++ ".returnType" :=
    String.append_assoc ..
  rw [hrecords, htail, Records.span?_of_front]
  · simp [Records.span?, hpart, hspan]
  · intro r hr heq
    have hsteps := Path.steps_dot ".returnType" "returnType" hne rfl (by decide)
    rw [← heq] at hsteps
    exact free_operation hne (by decide) r hr hsteps

end

/-! ### Constructs -/

section
variable {naming : Naming} {source : String} {c : Collection} {name : String} {s : Site}

/-- What a document lists in a slot of a construct comes from the last member of its name. -/
theorem last_of_entry (h : kept? c name (parse source).tree = some s) {m : MemberSlot}
    (hm : m ∈ memberSlots s.node s.kind) {f : String × Value}
    (hf : f ∈ (s.value ⟨naming, source.toList⟩).entriesAt m.slot) :
    ∃ front u back, members s.node s.kind m = front ++ u :: back ∧ m.entry u = f ∧
      u.nameOrEmpty = f.1 ∧ ∀ v ∈ back, v.nameOrEmpty ≠ u.nameOrEmpty := by
  have hproper : s.Proper := proper_of_mem (shaped_parse source) (kept?_mem h)
  obtain ⟨d, hd, harranged⟩ := hproper.members ⟨naming, source.toList⟩ hm
  exact member_of_mem hm harranged (Value.entriesAt_eq hd ▸ hf)

theorem member_of_entry (h : Settled source c name s) {m : MemberSlot}
    (hm : m ∈ memberSlots s.node s.kind) {f : String × Value}
    (hf : f ∈ (s.value ⟨naming, source.toList⟩).entriesAt m.slot) :
    ∃ u, SettledMember source c name s m u ∧ m.entry u = f ∧ u.nameOrEmpty = f.1 := by
  obtain ⟨front, u, back, hmembers, hentry, hname, hlast⟩ := last_of_entry h.kept hm hf
  exact ⟨u, ⟨h, hm, front, back, hmembers, hlast⟩, hentry, hname⟩

/-- An aggregate is one node with its commands. -/
theorem kept_aggregate (h : Settled source .aggregates name s) :
    s.kind = .aggregate ∧ ⟨"commands", .aggregateCommand, commandEntry (some s.node)⟩ ∈
      memberSlots s.node s.kind := by
  obtain ⟨-, hplace⟩ := kind_of_kept (by decide) h.kept
  have hkind : s.kind = .aggregate := by
    revert hplace
    cases s.kind <;> decide
  rw [hkind]
  exact ⟨rfl, List.mem_singleton_self _⟩

/-- A service has a body with its methods or none. -/
theorem kept_service (h : Settled source .services name s) :
    s.kind = .service ∧ ⟨"methods", .serviceMethod, methodEntry (some s.node)⟩ ∈
      memberSlots s.node s.kind ∨ s.kind = .legacyService := by
  obtain ⟨-, hplace⟩ := kind_of_kept (by decide) h.kept
  have hkind : s.kind = .service ∨ s.kind = .legacyService := by
    revert hplace
    cases s.kind <;> decide
  refine hkind.imp_left fun hkind => ?_
  rw [hkind]
  exact ⟨rfl, List.mem_singleton_self _⟩

/-- **A role that is written stands where its path leads.** -/
theorem quotes_api (h : Settled source .apis name s) :
    ∀ r ∈ References.ofApi (name, s.value ⟨naming, source.toList⟩),
      r.use = .role ∧ r.name = "provider" ∨
        (Direct.model naming source).Quotes source r.path r.name := by
  intro r hr
  obtain rfl := List.mem_singleton.mp hr
  obtain ⟨-, hplace⟩ := kind_of_kept (by decide) h.kept
  obtain ⟨within, hshaped⟩ := shaped_kept h.kept
  have hpiece := h.piece
  have hkind : s.kind = .api := by
    revert hplace
    cases s.kind <;> decide
  have hrole : (s.value ⟨naming, source.toList⟩).getString? "role" =
      some ((s.node.childWord? .apiRole).getD "provider") := by
    obtain ⟨c, parent, kind, node⟩ := s
    obtain rfl : kind = .api := hkind
    have hget : (finished (Build.api ⟨naming, source.toList⟩ node) .api node).get? "role" = _ :=
      get?_finished_other rfl
    exact congrArg (Option.bind · Value.string?) hget
  cases hchild : s.node.child? .apiRole with
  | none =>
      left
      rw [namedOrEmpty, hrole, Tree.childWord?, hchild]
      exact ⟨rfl, rfl⟩
  | some part =>
      right
      obtain ⟨word, hword, hbears⟩ := bears_child hpiece hshaped (by decide) hchild
      rw [namedOrEmpty, hrole, hword]
      show (Direct.model naming source).Quotes source
        (".".intercalate [Collection.apis.key, name, "role"]) word
      refine quotes_kept h (by decide) hbears fun home o ho span hspan => ?_
      rw [hkind] at ho
      obtain rfl := Option.some.inj ho
      simp [Build.api, Records.span?, hchild, hspan, String.append_assoc]

theorem quotes_root (hnone : (parse source).complaints = [])
    (h : Settled source .aggregates name s) (hkind : s.kind = .aggregate) :
    (Direct.model naming source).Quotes source
      (".".intercalate [Collection.aggregates.key, name, "aggregateRoot"])
      (((s.value ⟨naming, source.toList⟩).getString? "aggregateRoot").getD "") := by
  have hproper : s.Proper := proper_of_mem (shaped_parse source) (kept?_mem h.kept)
  obtain ⟨within, hshaped⟩ := hproper.shaped
  have hroot : (s.value ⟨naming, source.toList⟩).getString? "aggregateRoot" =
      s.node.childWord? .aggregateRoot := by
    obtain ⟨c, parent, kind, node⟩ := s
    obtain rfl : kind = .aggregate := hkind
    have hget : (finished (Build.aggregate ⟨naming, source.toList⟩ node) .aggregate node).get?
        "aggregateRoot" = _ := get?_finished_other rfl
    exact getString?_of_get? hget
  obtain ⟨part, hchild⟩ := needed hnone h.piece (hproper.kind.trans (congrArg some hkind))
    (by decide : NodeKind.aggregateRoot ∈ needs .aggregate)
  obtain ⟨word, hword, hbears⟩ := bears_child h.piece hshaped (by decide) hchild
  rw [hroot, hword]
  refine quotes_kept h (by decide) hbears fun home o ho span hspan => ?_
  rw [hkind] at ho
  obtain rfl := Option.some.inj ho
  simp [Build.aggregate, Records.span?, hchild, hspan, String.append_assoc]

/-- **What an aggregate and its commands refer to stands where the paths lead.** -/
theorem quotes_aggregate (hnone : (parse source).complaints = [])
    (h : Settled source .aggregates name s) :
    ∀ r ∈ References.ofAggregate (name, s.value ⟨naming, source.toList⟩),
      (Direct.model naming source).Quotes source r.path r.name := by
  obtain ⟨hkind, hslot⟩ := kept_aggregate h
  intro r hr
  rw [References.ofAggregate] at hr
  rcases List.mem_cons.mp hr with rfl | hr
  · exact quotes_root hnone h hkind
  · obtain ⟨⟨commandName, command⟩, hf, hr⟩ := List.mem_flatMap.mp hr
    obtain ⟨u, hmember, hentry, rfl⟩ := member_of_entry h hslot hf
    have hcommand : (commandEntry (some s.node) u).2 = command := congrArg Prod.snd hentry
    have hoperation : NodeKind.aggregateCommand ∈ operationKinds := by decide
    rw [← hcommand] at hr
    rcases List.mem_append.mp hr with hr | hr
    · exact quotes_parameter hmember hoperation r hr
    · exact quotes_events hmember hoperation r hr

/-- The aggregates of a service, with a body or without, stand where their path leads. -/
theorem quotes_served (h : Settled source .services name s) :
    ∀ aggregate ∈ ((s.value ⟨naming, source.toList⟩).itemsAt "aggregates").filterMap Value.string?,
      (Direct.model naming source).Quotes source
        (".".intercalate [Collection.services.key, name, "aggregates"]) aggregate := by
  intro aggregate haggregate
  obtain ⟨within, hshaped⟩ := shaped_kept h.kept
  have hkind := (kept_service h).imp_left And.left
  have hserved : (s.value ⟨naming, source.toList⟩).get? "aggregates" =
      some (.list (s.node.aggregateNames.map .string)) := by
    obtain ⟨c, parent, kind, node⟩ := s
    rcases hkind with hkind | hkind
    · obtain rfl : kind = .service := hkind
      exact (get?_finished_other rfl :
        (finished (Build.service _ node) .service node).get? "aggregates" = _)
    · obtain rfl : kind = .legacyService := hkind
      exact (get?_finished_other rfl :
        (finished (Build.legacyService _ node) .legacyService node).get? "aggregates" = _)
  have hmem : aggregate ∈ s.node.aggregateNames := by
    rw [Value.itemsAt_eq hserved] at haggregate
    simpa [Value.string?] using haggregate
  rw [Tree.aggregateNames] at hmem
  cases hlist : s.node.child? .serviceAggregates with
  | none =>
      rw [hlist] at hmem
      exact absurd hmem List.not_mem_nil
  | some list =>
      rw [hlist] at hmem
      obtain ⟨label, hlabel, hword⟩ := List.mem_filterMap.mp hmem
      obtain ⟨hin, hnode⟩ := List.mem_filter.mp hlabel
      obtain ⟨_, hlistShaped⟩ := hshaped.child (Tree.child?_spec hlist).1
      obtain ⟨_, hlabelShaped⟩ := hlistShaped.child hin
      obtain ⟨token, rfl, hident⟩ := hlabelShaped.word (beq_iff_eq.mp hnode) (by decide)
      obtain rfl : token.text = aggregate := by
        rw [Tree.word?_word hident] at hword
        exact Option.some.inj hword
      have htoken : token ∈ list.leaves :=
        (Tree.part_of_mem hin).mem_leaves (List.mem_singleton_self _)
      have hbears := bears_token (h.piece.child? _ list hlist) htoken
      refine quotes_kept h (by decide) hbears fun home o ho span hspan => ?_
      rcases hkind with hkind | hkind <;>
        · rw [hkind] at ho
          obtain rfl := Option.some.inj ho
          simp [Build.service, Build.legacyService, Build.serviceRecords, Records.span?, hlist,
            hspan, String.append_assoc]

/-- The references of a method lie below it. -/
theorem steps_method {base : List String} {v : Value} {r : Reference}
    (hr : r ∈ named .parameter base v "parameter" ++ named .result base v "returnType" ++
      References.events base v) : ∃ rest, r.steps = base ++ rest := by
  have hnamed : ∀ {use key}, r ∈ named use base v key → ∃ rest, r.steps = base ++ rest := by
    intro use key h
    obtain ⟨name, -, rfl⟩ := Option.map_eq_some_iff.mp (Option.mem_toList.mp h)
    exact ⟨[key], rfl⟩
  rcases List.mem_append.mp hr with hr | hr
  · exact (List.mem_append.mp hr).elim hnamed hnamed
  · obtain ⟨⟨item, i⟩, -, hr⟩ := List.mem_flatMap.mp hr
    cases item
    case list group =>
      obtain ⟨⟨inner, j⟩, -, rfl⟩ := List.mem_map.mp hr
      exact ⟨_, List.append_assoc ..⟩
    all_goals
      obtain rfl := List.mem_singleton.mp hr
      exact ⟨_, rfl⟩

/-- A service without a body says so, and has the methods that nobody wrote. -/
theorem value_legacy (input : BuildInput) {s : Site} (hkind : s.kind = .legacyService) :
    (s.value input).Marked "isLegacy" ∧ (s.value input).get? "methods" =
      some (.map (Crud.methods input.naming s.node.nameOrEmpty s.node.aggregateNames)) := by
  obtain ⟨c, parent, kind, node⟩ := s
  obtain rfl : kind = .legacyService := hkind
  have hget : ∀ key, (finished (Build.legacyService input node) .legacyService node).get? key =
      Dict.get? (Build.legacyService input node).scope.node key := fun _ => get?_finished_other rfl
  exact ⟨congrArg (fun v => Option.any Value.isTrue v) (hget "isLegacy"), hget "methods"⟩

/-- **What a service refers to stands where the paths lead**, but for methods that nobody
wrote. -/
theorem quotes_service (h : Settled source .services name s) :
    ∀ r ∈ References.ofService (name, s.value ⟨naming, source.toList⟩),
      (Direct.model naming source).Quotes source r.path r.name ∨
        (s.value ⟨naming, source.toList⟩).Marked "isLegacy" ∧
          Under ["services", name, "methods"] r.path := by
  intro r hr
  rw [References.ofService] at hr
  rcases List.mem_append.mp hr with hr | hr
  · obtain ⟨aggregate, haggregate, rfl⟩ := List.mem_map.mp hr
    exact .inl (quotes_served h aggregate haggregate)
  · obtain ⟨⟨methodName, method⟩, hf, hr⟩ := List.mem_flatMap.mp hr
    rcases kept_service h with ⟨-, hslot⟩ | hkind
    · left
      obtain ⟨u, hmember, hentry, rfl⟩ := member_of_entry h hslot hf
      have hmethod : (methodEntry (some s.node) u).2 = method := congrArg Prod.snd hentry
      have hoperation : NodeKind.serviceMethod ∈ operationKinds := by decide
      rw [← hmethod] at hr
      rcases List.mem_append.mp hr with hr | hr
      · rcases List.mem_append.mp hr with hr | hr
        · exact quotes_parameter hmember hoperation r hr
        · exact quotes_result hmember rfl r hr
      · exact quotes_events hmember hoperation r hr
    · obtain ⟨rest, hsteps⟩ := steps_method hr
      refine .inr ⟨(value_legacy _ hkind).1, ?_⟩
      rw [Reference.path, hsteps]
      refine Path.under_intercalate (by decide) (by decide) (fun step hstep => ?_)
        (methodName :: rest)
      rcases List.mem_pair.mp hstep with rfl | rfl
      · exact dotless_kept h.kept
      · decide

end

/-! ### Documents -/

section
variable {naming : Naming} {source : String}

theorem settled_of_mem {c : Collection} (hc : c ∈ Collection.located)
    (hfields : c ∉ Collection.withFields) {e : String × Value}
    (he : e ∈ (Direct.model naming source).document.collection c) :
    ∃ s, Settled source c e.1 s ∧ s.value ⟨naming, source.toList⟩ = e.2 := by
  have hrel : c ≠ .relationships := by
    rintro rfl
    exact absurd hc (by decide)
  obtain ⟨s, hs, hvalue⟩ := kept?_of_mem (shaped_parse source) hrel he
  exact ⟨s, ⟨hc, hs, not_recurs hc hfields hs⟩, hvalue⟩

/-- Classification leaves the type of a field as it is. -/
theorem getString?_classified (symbols : SymbolTable) (v : Value) :
    (Classification.onMap (Classification.field symbols) v).getString? "type" =
      v.getString? "type" := by
  cases v with
  | map node => exact congrArg (Option.bind · Value.string?) (Classification.get?_field_type ..)
  | _ => rfl

/-- A path leads somewhere, and a value stands there unless the path is that of the type of a
field whose name is declared again. -/
def Model.Locates (m : Model) (source path value : String) : Prop :=
  ∃ span, m.location? path = some span ∧
    (Quoted source span.range value ∨ Redeclared (parse source).tree path)

theorem Model.Quotes.locates {m : Model} {path value : String} (h : m.Quotes source path value) :
    m.Locates source path value :=
  h.imp fun _ hspan => hspan.imp_right .inl

/-- **The types of fields stand where their paths lead**, but for names that are declared
again. -/
theorem locates_types (hnone : (parse source).complaints = []) {c : Collection}
    (hc : c ∈ Collection.withFields) {symbols : SymbolTable} :
    ∀ r ∈ References.types c (Classification.onValues (Classification.declaration symbols)
        ((Direct.model naming source).document.collection c)),
      (Direct.model naming source).Locates source r.path r.name := by
  intro r hr
  obtain ⟨⟨name, declaration⟩, hdeclaration, hr⟩ := List.mem_flatMap.mp hr
  obtain ⟨⟨name', v⟩, he, heq⟩ := List.mem_map.mp hdeclaration
  obtain ⟨rfl, rfl⟩ := Prod.mk.inj heq
  obtain ⟨⟨fieldName, field⟩, hfield, hr⟩ := List.mem_flatMap.mp hr
  rw [entriesAt_declaration] at hfield
  obtain ⟨⟨fieldName', w⟩, hf, heq⟩ := List.mem_map.mp hfield
  obtain ⟨rfl, rfl⟩ := Prod.mk.inj heq
  obtain ⟨type, htype, rfl⟩ := Option.map_eq_some_iff.mp (Option.mem_toList.mp hr)
  rw [getString?_classified] at htype
  have hrel : c ≠ .relationships := fun heq => absurd (heq ▸ hc) (by decide)
  obtain ⟨s, hs, hvalue⟩ := kept?_of_mem (shaped_parse source) hrel he
  obtain rfl : s.value ⟨naming, source.toList⟩ = v := hvalue
  have hslot := slot_of_site hc (kept?_mem hs) (kept?_eq_some hs).1
  obtain ⟨front, u, back, hmembers, hentry, hname, hlast⟩ := last_of_entry hs hslot hf
  obtain rfl : u.nameOrEmpty = fieldName' := hname
  obtain rfl : (fieldEntry u).2 = w := congrArg Prod.snd hentry
  have hread : (fieldEntry u).2.getString? "type" = (Build.fieldTypeOf u).1 :=
    getString?_of_get? ((get?_fieldEntry u "type").trans rfl)
  exact location?_type naming hnone ⟨hc, hs, ⟨front, hmembers⟩, hlast⟩ (hread.symm.trans htype)

/-- The sides of relationships stand where their paths lead. -/
theorem quotes_group {group : String × Value}
    (h : group ∈ (Direct.model naming source).document.relationships) :
    ∀ r ∈ References.ofGroup group, (Direct.model naming source).Quotes source r.path r.name := by
  obtain ⟨type, v⟩ := group
  intro r hr
  obtain ⟨⟨name, relationship⟩, hname, hr⟩ := List.mem_flatMap.mp hr
  obtain ⟨key, hkey, hr⟩ := List.mem_flatMap.mp hr
  obtain ⟨entity, hentity, rfl⟩ := Option.map_eq_some_iff.mp (Option.mem_toList.mp hr)
  cases v with
  | map entries =>
      rcases List.mem_pair.mp hkey with rfl | rfl
      · exact quotes_side .origin h hname hentity
      · exact quotes_side .target h hname hentity
  | _ => exact nomatch hname

/-! ### The whole analysis -/

/-- A path below the methods of a service that has no body, which nobody wrote. -/
def Document.Unwritten (d : Document) (path : String) : Prop :=
  ∃ service ∈ d.services, service.2.Marked "isLegacy" ∧
    Under ["services", service.1, "methods"] path

/-- **Every reference of a classified document is located**, or it is a role that is not
written, or it belongs to a method that nobody wrote. -/
theorem locates_references (hnone : (parse source).complaints = []) :
    ∀ r ∈ references (Direct.model naming source).classify.document,
      (Direct.model naming source).Locates source r.path r.name ∨
        r.use = .role ∧ r.name = "provider" ∨
        (Direct.model naming source).classify.document.Unwritten r.path := by
  have hclassified := Classification.collection_classify (declarations_model naming source)
  have hapis : (Direct.model naming source).classify.document.apis = _ := hclassified .apis
  have haggregates : (Direct.model naming source).classify.document.aggregates = _ :=
    hclassified .aggregates
  have hservices : (Direct.model naming source).classify.document.services = _ :=
    hclassified .services
  have hrelationships : (Direct.model naming source).classify.document.relationships = _ :=
    hclassified .relationships
  rw [if_neg (by decide)] at hapis haggregates hservices hrelationships
  intro r hr
  rw [references] at hr
  simp only [List.mem_append] at hr
  rcases hr with (((hr | hr) | hr) | hr) | hr
  · rw [hapis] at hr
    obtain ⟨e, he, hr⟩ := List.mem_flatMap.mp hr
    obtain ⟨s, hs, hvalue⟩ := settled_of_mem (by decide) (by decide) he
    have hquotes := @quotes_api naming source e.1 s hs r
    rw [hvalue] at hquotes
    exact (hquotes hr).elim (fun h => .inr (.inl h)) fun h => .inl h.locates
  · obtain ⟨c, hc, hr⟩ := List.mem_flatMap.mp hr
    rw [hclassified, if_pos hc] at hr
    exact .inl (locates_types hnone hc r hr)
  · rw [haggregates] at hr
    obtain ⟨e, he, hr⟩ := List.mem_flatMap.mp hr
    obtain ⟨s, hs, hvalue⟩ := settled_of_mem (by decide) (by decide) he
    have hquotes := @quotes_aggregate naming source e.1 s hnone hs r
    rw [hvalue] at hquotes
    exact .inl (hquotes hr).locates
  · rw [hservices] at hr
    obtain ⟨e, he, hr⟩ := List.mem_flatMap.mp hr
    obtain ⟨s, hs, hvalue⟩ := settled_of_mem (by decide) (by decide) he
    have hquotes := @quotes_service naming source e.1 s hs r
    rw [hvalue] at hquotes
    rcases hquotes hr with h | ⟨hlegacy, hunder⟩
    · exact .inl h.locates
    · exact .inr (.inr ⟨e, hservices ▸ he, hlegacy, hunder⟩)
  · rw [hrelationships] at hr
    obtain ⟨group, hgroup, hr⟩ := List.mem_flatMap.mp hr
    exact .inl (quotes_group hgroup r hr).locates

/-- Checks leave document and index as they are, and classification the index. -/
theorem same_validate (o : Options) (m : Model) :
    (m.classify.validate o).document = m.classify.document ∧
      ∀ path, (m.classify.validate o).location? path = m.location? path := by
  have hsymbols : m.classify.symbols = some (SymbolTable.ofDocument m.document) := rfl
  rw [validate_eq o hsymbols]
  exact ⟨rfl, fun _ => rfl⟩

/-- **Problems are located where their values are written.**  In a text without errors every
problem has a location but those of methods that nobody wrote, and its value stands there; only
of the type of a field whose name is declared again nothing is said but that it has one. -/
theorem analyze_located (options : Options) (naming : Naming) (source : String)
    (h : (parse source).errors source = []) :
    ∃ a, analyze options naming source = .ok a ∧ ∀ p ∈ a.model.problems,
      a.model.document.Unwritten p.path ∨ ∃ span, p.location = some span ∧
        (Quoted source span.range p.value ∨ Redeclared (parse source).tree p.path) := by
  have hnone : (parse source).complaints = [] := List.map_eq_nil_iff.mp h
  have hdeclarations : ∀ c ∈ Collection.withFields,
      Classification.Declarations ((Direct.model naming source).document.collection c) :=
    fun c hc => declarations_draft _ (shaped_parse source) (Tree.plain_parse source) hc
  have hsymbols : (Direct.model naming source).classify.symbols =
      some (SymbolTable.ofDocument (Direct.model naming source).document) := rfl
  have hproblems := problems_validate options hsymbols (known_classify hdeclarations)
  have hsame := same_validate options (Direct.model naming source)
  have hmodel := analyze_eq options naming source
  generalize (Direct.model naming source).classify.validate options = m at hproblems hsame hmodel
  obtain ⟨hdocument, hlocation⟩ := hsame
  refine ⟨_, hmodel, fun p hp => ?_⟩
  replace hp : p ∈ m.problems := hp
  rw [hproblems] at hp
  obtain ⟨r, hr, rfl⟩ := List.mem_map.mp hp
  obtain ⟨hr, hunmet⟩ := List.mem_filter.mp hr
  show m.document.Unwritten _ ∨ _
  rw [hdocument] at hr hunmet ⊢
  rcases locates_references hnone r hr with ⟨span, hspan, hquoted⟩ | ⟨huse, hname⟩ | hunwritten
  · exact .inr ⟨span, (hlocation r.path).trans hspan, hquoted⟩
  · -- A role that is not written is that of a provider, and that is one.
    have hfits : r.Fits options (Direct.model naming source).classify.document := by
      rw [Reference.Fits, huse, hname]
      exact .inl rfl
    simp [hfits] at hunmet
  · exact .inl hunwritten

/-- Unknown types are located where they are written, also around a declaration of the same
name with other fields. -/
theorem analyze_located_around :
    let source := "entity A { x Ghost y A { z Spirit } w Spectre }"
    (parse source).errors source = [] ∧ ∃ a, analyze {} .english source = .ok a ∧
      ∀ path ∈ ["entities.A.fields.x.type", "entities.A.fields.w.type"],
        ∃ p ∈ a.model.problems, p.path = path ∧
          ∃ span, p.location = some span ∧ Quoted source span.range p.value := by
  intro source
  have hnone : (parse source).errors source = [] := by decide +kernel
  have hproblems : ∀ path ∈ ["entities.A.fields.x.type", "entities.A.fields.w.type"],
      ∃ p ∈ ((Direct.model .english source).classify.validate {}).problems, p.path = path := by
    decide +kernel
  have hservices :
      ((Direct.model .english source).classify.validate {}).document.services = [] := by
    decide +kernel
  have hsites : ∀ s ∈ sitesAfter none none (parse source).tree, ∀ w ∈ s.fields,
      ∀ s' ∈ blocks s.collection w, s'.collection = s.collection → s'.name = s.name →
        ∀ u ∈ s.fields, ∀ v ∈ s'.fields, v.nameOrEmpty ≠ u.nameOrEmpty := by decide +kernel
  obtain ⟨a, ha, hlocated⟩ := analyze_located {} .english source hnone
  have hmodel := Except.ok.inj (ha.symm.trans (analyze_eq {} .english source))
  generalize (Direct.model .english source).classify.validate {} = m at hproblems hservices hmodel
  subst hmodel
  refine ⟨hnone, _, ha, fun path hpath => ?_⟩
  obtain ⟨p, hp, rfl⟩ := hproblems path hpath
  refine ⟨p, hp, rfl, ?_⟩
  rcases hlocated p hp with ⟨service, hservice, -⟩ | ⟨span, hspan, hquoted | hagain⟩
  · replace hservice : service ∈ m.document.services := hservice
    rw [hservices] at hservice
    exact nomatch hservice
  · exact ⟨span, hspan, hquoted⟩
  · exact absurd hagain (not_redeclared hsites p.path)

/-- Problems that are not located so: the methods of a service without a body stand nowhere,
between the three tokens of the type of an array of bytes there may be blanks, and a field whose
name is declared again behind it is taken for the other one. -/
theorem problems_elsewhere :
    (let source := "service A with S"
    (parse source).errors source = [] ∧ ∃ a, analyze {} .english source = .ok a ∧
      ∃ p ∈ a.model.problems, p.path = "services.S.methods.createA.parameter" ∧ p.value = "A" ∧
        p.location = none) ∧
    (let source := "entity A { x byte [ ] }"
    (parse source).errors source = [] ∧
      ∃ a, analyze { standardTypes := [] } .english source = .ok a ∧
      ∃ p ∈ a.model.problems, p.path = "entities.A.fields.x.type" ∧ p.value = "byte[]" ∧
        (p.location.map fun span => String.ofList (Source.textIn source.toList span.range)) =
          some "byte [ ]" ∧ ¬p.value.toList <:+: "byte [ ]".toList) ∧
    (let source := "entity A { x Ghost y A { x Spirit } }"
    (parse source).errors source = [] ∧ ∃ a, analyze {} .english source = .ok a ∧
      ∃ p ∈ a.model.problems, p.path = "entities.A.fields.x.type" ∧ p.value = "Ghost" ∧
        (p.location.map fun span => String.ofList (Source.textIn source.toList span.range)) =
          some "Spirit") := by
  refine ⟨⟨?_, ?_⟩, ⟨?_, ?_⟩, ?_, ?_⟩
  · decide +kernel
  · refine ⟨_, analyze_eq {} .english _, ?_⟩
    decide +kernel
  · decide +kernel
  · refine ⟨_, analyze_eq { standardTypes := [] } .english _, ?_⟩
    decide +kernel
  · decide +kernel
  · refine ⟨_, analyze_eq {} .english _, ?_⟩
    decide +kernel

end

end DomainModel
