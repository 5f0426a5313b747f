/-
What is recorded where.

The spans of a text are recorded on entering its constructs, from front to back, and of what
is recorded for one path the last counts.  So where a path leads is read off the row of all
records from its back (`Records.span?`).

Every construct records below its own path.  `Under` says so in terms of steps, since two
paths may have a beginning in common that is no step.  The path of a stored construct is its
collection and its name; what stands in it and is no stored construct itself goes on from
there.  So nothing below that path is recorded outside of constructs of that name
(`under_changes`), and what the last of them records stays (`kept_changes`).
-/
import DomainModel.Proofs.Build.Spans

namespace DomainModel

open Direct

/-! ### The last record of a path -/

namespace Records

/-- The span that some records give a path: the last one that is there. -/
def span? : Records → String → Option Span
  | [], _ => none
  | r :: rs, path => (span? rs path).or (if r.1 = path then r.2 else none)

theorem span?_append (rs rs' : Records) (path : String) :
    span? (rs ++ rs') path = (span? rs' path).or (span? rs path) := by
  induction rs with
  | nil => simp [span?]
  | cons r rs ih => rw [List.cons_append, span?, ih, span?, Option.or_assoc]

/-- Records of other paths say nothing. -/
theorem span?_of_free {rs : Records} {path : String} (h : ∀ r ∈ rs, r.1 ≠ path) :
    span? rs path = none := by
  induction rs with
  | nil => rfl
  | cons r rs ih =>
      obtain ⟨hr, hrs⟩ := List.forall_mem_cons.mp h
      rw [span?, ih hrs, if_neg hr]
      rfl

/-- What is recorded behind takes precedence. -/
theorem span?_of_back {front back : Records} {path : String} {span : Span}
    (h : span? back path = some span) : span? (front ++ back) path = some span := by
  rw [span?_append, h]
  rfl

/-- Records of other paths behind are no matter. -/
theorem span?_of_front {front back : Records} {path : String} (h : ∀ r ∈ back, r.1 ≠ path) :
    span? (front ++ back) path = span? front path := by
  rw [span?_append, span?_of_free h]
  rfl

theorem mem_of_span? {rs : Records} {path : String} {span : Span} (h : span? rs path = some span) :
    (path, some span) ∈ rs := by
  induction rs with
  | nil => exact nomatch h
  | cons r rs ih =>
      rw [span?, Option.or_eq_some_iff] at h
      rcases h with h | ⟨-, h⟩
      · exact List.mem_cons_of_mem _ (ih h)
      · split at h
        · rename_i hpath
          rw [← hpath, ← h]
          exact List.mem_cons_self ..
        · exact nomatch h

theorem span?_ne_none {rs : Records} {path : String} {span : Span}
    (h : (path, some span) ∈ rs) : span? rs path ≠ none := by
  induction rs with
  | nil => exact nomatch h
  | cons r rs ih =>
      intro hnone
      rw [span?, Option.or_eq_none_iff] at hnone
      rcases List.mem_cons.mp h with rfl | h
      · simp at hnone
      · exact ih h hnone.1

/-- A record that all records of its path agree with counts. -/
theorem span?_of_mem {rs : Records} {path : String} {span : Span} (h : (path, some span) ∈ rs)
    (hsame : ∀ r ∈ rs, r.1 = path → r.2 = some span) : span? rs path = some span := by
  obtain ⟨other, hother⟩ := Option.ne_none_iff_exists'.mp (span?_ne_none h)
  rw [hother]
  exact hsame _ (mem_of_span? hother) rfl

end Records

/-- An index holds what was recorded last. -/
theorem Locations.get?_foldl (rs : Records) (path : String) : ∀ index : Locations,
    (rs.foldl (fun index r => match r.2 with
      | some span => index.record r.1 span
      | none => index) index).get? path = (Records.span? rs path).or (index.get? path) := by
  induction rs with
  | nil => exact fun _ => rfl
  | cons r rs ih =>
      intro index
      rw [List.foldl_cons, ih, Records.span?, Option.or_assoc]
      congr 1
      cases hspan : r.2 with
      | none => simp
      | some span =>
          show (Dict.get? (Dict.insert r.1 _ index.entries) path).map _ = _
          rw [Dict.get?_insert]
          by_cases h : path = r.1
          · rw [if_pos h, if_pos h.symm]
            rfl
          · rw [if_neg h, if_neg (Ne.symm h)]
            rfl

/-- All records among some changes. -/
def recordsOf (cs : List Change) : Records :=
  cs.flatMap fun
    | .recorded records => records
    | _ => []

@[simp] theorem recordsOf_nil : recordsOf [] = [] := rfl

@[simp] theorem recordsOf_append (cs ds : List Change) :
    recordsOf (cs ++ ds) = recordsOf cs ++ recordsOf ds := List.flatMap_append

theorem recordsOf_flatMap {α : Type} (f : α → List Change) (as : List α) :
    recordsOf (as.flatMap f) = as.flatMap fun a => recordsOf (f a) := List.flatMap_assoc

theorem mem_recordsOf {cs : List Change} {r : String × Option Span} (h : r ∈ recordsOf cs) :
    ∃ records, .recorded records ∈ cs ∧ r ∈ records := by
  obtain ⟨change, hchange, hr⟩ := List.mem_flatMap.mp h
  cases change with
  | recorded records => exact ⟨records, hchange, hr⟩
  | _ => exact nomatch hr

theorem location?_changes (path : String) (cs : List Change) : ∀ d : Draft,
    (cs.foldl Draft.change d).locations.get? path =
      (Records.span? (recordsOf cs) path).or (d.locations.get? path) := by
  induction cs with
  | nil => exact fun _ => rfl
  | cons change cs ih =>
      intro d
      have hsplit : recordsOf (change :: cs) = recordsOf [change] ++ recordsOf cs := by
        rw [← recordsOf_append]
        rfl
      rw [List.foldl_cons, ih, hsplit, Records.span?_append, Option.or_assoc]
      congr 1
      cases change with
      | recorded records =>
          rw [show recordsOf [.recorded records] = records from List.append_nil _]
          exact Locations.get?_foldl records path _
      | _ => rfl

/-- **A path leads to what the tree records for it last.** -/
theorem location?_model (naming : Naming) (source : String) (path : String) :
    (Direct.model naming source).location? path = Records.span?
      (recordsOf (changes ⟨naming, source.toList⟩ none none (parse source).tree)) path := by
  have h := location?_changes path (changes ⟨naming, source.toList⟩ none none (parse source).tree) {}
  exact h.trans (Option.or_none)

/-! ### Paths below paths -/

theorem Collection.key_ne (c : Collection) : c.key ≠ "" := by
  cases c <;> decide

theorem Collection.key_inj {c c' : Collection} (h : c.key = c'.key) : c = c' := by
  revert h
  cases c <;> cases c' <;> decide

namespace Path

/-- The path begins with these steps. -/
def Under (place : List String) (path : String) : Prop := place <+: steps path

theorem under_append {base : String} (h : base ≠ "") {tail : String}
    (htail : tail.toList.head? = some '.') :
    Under (steps base) (base ++ tail) ∧ (steps base).length < (steps (base ++ tail)).length := by
  obtain ⟨rest, rfl⟩ : ∃ rest, tail = "." ++ rest := by
    refine ⟨String.ofList tail.toList.tail, String.toList_inj.mp ?_⟩
    exact (List.eq_cons_of_mem_head? htail).trans (by simp)
  rw [← String.append_assoc, Under, steps_append h, List.length_append]
  refine ⟨List.prefix_append .., Nat.lt_add_of_pos_right (List.length_pos_iff.mpr ?_)⟩
  simpa using Text.splitOn_ne_nil '.' _

theorem two_steps {base : String} (h : base ≠ "") (slot name : String) :
    Under (steps base) (base ++ "." ++ (slot ++ "." ++ name)) ∧
      (steps base).length + 2 ≤ (steps (base ++ "." ++ (slot ++ "." ++ name))).length := by
  have hpieces : (slot ++ "." ++ name).toList = slot.toList ++ '.' :: name.toList := by simp
  have hslot := List.length_pos_iff.mpr (Text.splitOn_ne_nil '.' slot.toList)
  have hname := List.length_pos_iff.mpr (Text.splitOn_ne_nil '.' name.toList)
  rw [Under, steps_append h, hpieces, Text.splitOn_append, List.length_append, List.length_map,
    List.length_append]
  exact ⟨List.prefix_append .., by omega⟩

theorem steps_of_key (c : Collection) : steps c.key = [c.key] := by
  cases c <;> decide

/-- The steps of a name in a collection. -/
theorem steps_key (c : Collection) {name : String} (h : Dotless name) :
    steps (c.key ++ "." ++ name) = [c.key, name] := by
  rw [steps_below c.key_ne h, steps_of_key]
  rfl

/-- A path that is made of steps lies below the first of them. -/
theorem under_intercalate {first : String} {more : List String} (hne : first ≠ "")
    (hfirst : Dotless first) (hmore : ∀ step ∈ more, Dotless step) (rest : List String) :
    Under (first :: more) (".".intercalate (first :: more ++ rest)) := by
  obtain ⟨hpath, hsteps⟩ := steps_intercalate hne hfirst hmore
  cases rest with
  | nil =>
      rw [List.append_nil]
      exact ⟨[], (List.append_nil _).trans hsteps.symm⟩
  | cons step rest =>
      rw [String.intercalate_append_of_ne_nil (List.cons_ne_nil _ _) (List.cons_ne_nil _ _),
        Under, steps_append hpath, hsteps]
      exact List.prefix_append ..

/-- Two places above one path are above each other. -/
theorem Under.prefix_of_le {place place' : List String} {path : String} (h : Under place path)
    (h' : Under place' path) (hle : place.length ≤ place'.length) : place <+: place' :=
  List.prefix_of_prefix_length_le h h' hle

end Path

open DomainModel.Path (Under steps)

/-! ### Constructs record below their paths -/

/-- A record of a path, or of one that goes on from there. -/
def Below (path : String) (r : String × Option Span) : Prop :=
  r.1 = path ∨ ∃ tail : String, tail.toList.head? = some '.' ∧ r.1 = path ++ tail

theorem below_tail (path : String) {tail : String} (h : tail.toList.head? = some '.')
    (span : Option Span) : Below path (path ++ tail, span) := .inr ⟨tail, h, rfl⟩

theorem Below.trans {path tail : String} (htail : tail.toList.head? = some '.')
    {r : String × Option Span} (h : Below (path ++ tail) r) : Below path r := by
  have hne : tail.toList ≠ [] := fun hnil => by simp [hnil] at htail
  rcases h with hself | ⟨more, -, hmore⟩
  · exact .inr ⟨tail, htail, hself⟩
  · refine .inr ⟨tail ++ more, ?_, by rw [hmore, String.append_assoc]⟩
    rw [String.toList_append, List.head?_append_of_ne_nil _ hne, htail]

theorem Below.under {path : String} (hpath : path ≠ "") {r : String × Option Span}
    (h : Below path r) : Under (steps path) r.1 := by
  rcases h with hself | ⟨tail, htail, hr⟩
  · rw [hself]
    exact List.prefix_refl _
  · rw [hr]
    exact (Path.under_append hpath htail).1

theorem path_of_validations {input : BuildInput} {path : String} {ts : List Tree} :
    ∀ r ∈ Build.validationRecords input path ts, ∃ name, r.1 = path ++ ".validations." ++ name := by
  intro r hr
  obtain ⟨t, -, hr⟩ := List.mem_filterMap.mp hr
  obtain ⟨name, -, rfl⟩ := Option.map_eq_some_iff.mp hr
  exact ⟨name, rfl⟩

theorem below_event {input : BuildInput} {base : String} {i : Nat} {entry : Tree.EventEntry} :
    ∀ r ∈ Build.eventRecords input base i entry, Below base r := by
  intro r hr
  cases entry with
  | single node =>
      rcases List.mem_pair.mp hr with rfl | rfl
      · exact .inr ⟨"." ++ node.word?.getD "", by simp, by rw [String.append_assoc]⟩
      · exact .inr ⟨"." ++ toString i, by simp, by rw [String.append_assoc]⟩
  | group node alternatives =>
      rcases List.mem_cons.mp hr with rfl | hr
      · exact .inr ⟨"." ++ toString i, by simp, by rw [String.append_assoc]⟩
      · obtain ⟨⟨event, j⟩, -, hr⟩ := List.mem_flatMap.mp hr
        rcases List.mem_pair.mp hr with rfl | rfl
        · exact .inr ⟨"." ++ event.word?.getD "", by simp, by rw [String.append_assoc]⟩
        · exact .inr ⟨"." ++ toString i ++ "." ++ toString j, by simp,
            by simp [String.append_assoc]⟩

theorem below_withEvents {input : BuildInput} {path : String} {t : Tree} :
    ∀ r ∈ Build.withEventsRecords input path t, Below (path ++ ".withEvents") r := by
  intro r hr
  rw [Build.withEventsRecords] at hr
  split at hr
  · exact absurd hr List.not_mem_nil
  · rcases List.mem_cons.mp hr with rfl | hr
    · exact .inl rfl
    · obtain ⟨⟨entry, i⟩, -, hr⟩ := List.mem_flatMap.mp hr
      exact below_event r hr

theorem below_operation {input : BuildInput} {path : String} {t : Tree} :
    ∀ r ∈ Build.operationRecords input path t, Below path r := by
  rw [Build.operationRecords, List.forall_mem_append]
  refine ⟨fun r hr => (below_withEvents r hr).trans rfl, ?_⟩
  simp only [List.forall_mem_cons]
  exact ⟨.inl rfl, below_tail path rfl _, below_tail path rfl _, List.forall_mem_nil _⟩

/-- A check behind the block of a field, which is recorded below the field. -/
def Direct.Home.Checks (home : Home) (r : String × Option Span) : Prop :=
  ∃ name, r.1 = home.path ++ ".validations." ++ name

/-- **What a construct records lies below its path**, but for the checks behind the block of a
field, which lie below the field. -/
theorem below_opening {input : BuildInput} {home : Option Home} {parent : Option Tree}
    {kind : NodeKind} {t : Tree} {o : Opening} (h : opening input home parent kind t = some o) :
    ∀ r ∈ o.records, Below o.scope.path r ∨ kind = .nestedField ∧
      ∃ owner ∈ home, owner.Checks r := by
  cases kind
  case nestedField =>
    obtain ⟨owner, home, -, rfl, rfl⟩ := opening_block h
    simp only [Build.nestedField, List.forall_mem_append, List.forall_mem_cons]
    refine ⟨fun r hr => .inr ⟨trivial, home, rfl, path_of_validations r hr⟩, .inl (.inl rfl), ?_⟩
    exact ⟨.inl (below_tail _ rfl _), .inl (below_tail _ rfl _), .inl (below_tail _ rfl _),
      List.forall_mem_nil _⟩
  case field =>
    obtain ⟨home, -, rfl⟩ := Option.map_eq_some_iff.mp h
    simp only [Build.field, List.forall_mem_append, List.forall_mem_cons]
    refine ⟨fun r hr => .inl ?_, .inl (.inl rfl), .inl (below_tail _ rfl _),
      .inl (below_tail _ rfl _), .inl (below_tail _ rfl _), List.forall_mem_nil _⟩
    obtain ⟨name, hname⟩ := path_of_validations r hr
    exact .inr ⟨".validations." ++ name, by simp, by rw [hname, String.append_assoc]⟩
  case serviceMethod =>
    obtain ⟨home, -, rfl⟩ := Option.map_eq_some_iff.mp h
    exact List.forall_mem_cons.mpr ⟨.inl (below_tail _ rfl _),
      fun r hr => .inl (below_operation r hr)⟩
  case aggregateCommand =>
    obtain ⟨home, -, rfl⟩ := Option.map_eq_some_iff.mp h
    exact fun r hr => .inl (below_operation r hr)
  all_goals first
    | exact absurd h.symm (Option.some_ne_none o)
    | obtain rfl := Option.some.inj h
  all_goals
    simp only [Build.api, Build.plugin, Build.declaration, Build.enumeration, Build.service,
      Build.legacyService, Build.serviceRecords, Build.aggregate, List.forall_mem_cons]
    repeat' apply And.intro
    all_goals first
      | exact List.forall_mem_nil _
      | exact .inl (.inl rfl)
      | exact .inl (below_tail _ rfl _)

/-- **A construct is either stored in a collection, at its name there, or stands in another
one**, in a slot of it. -/
theorem path_of_opening {input : BuildInput} {home : Option Home} {parent : Option Tree}
    {kind : NodeKind} {t : Tree} {o : Opening} (h : opening input home parent kind t = some o) :
    o.scope.place.slot = none ∧
        o.scope.path = o.scope.place.collection.key ++ "." ++ o.scope.place.name ∨
      ∃ owner ∈ home, ∃ slot, o.scope.place.slot = some slot ∧
        o.scope.path = owner.path ++ "." ++ (slot ++ "." ++ o.scope.place.name) := by
  cases kind
  case nestedField =>
    obtain ⟨owner, home, -, rfl, rfl⟩ := opening_block h
    exact .inl ⟨rfl, rfl⟩
  case field | serviceMethod | aggregateCommand =>
    obtain ⟨home, rfl, rfl⟩ := Option.map_eq_some_iff.mp h
    refine .inr ⟨home, rfl, _, rfl, String.toList_inj.mp ?_⟩
    simp [Build.field, Build.serviceMethod, Build.aggregateCommand, Build.operation, Home.scope]
  all_goals first
    | exact absurd h.symm (Option.some_ne_none o)
    | obtain rfl := Option.some.inj h
      exact .inl ⟨rfl, rfl⟩

/-! ### Nothing is recorded below a name but by its constructs -/

theorem recordsOf_opening {input : BuildInput} {home : Option Home} {parent : Option Tree}
    {kind : NodeKind} {children : List Tree} {o : Opening}
    (h : opening input home parent kind (.node kind children) = some o) :
    recordsOf (changes input home parent (.node kind children)) = o.records ++
      recordsOf (changesOfAll input (some ⟨o.scope.path, o.scope.place.collection⟩)
        (some (.node kind children)) children) := by
  have hreservation : recordsOf (reservation o.scope.place) = [] := by
    rw [reservation]
    split <;> rfl
  have hstorage : ∀ v, recordsOf (storage o.scope.place v) = [] := by
    intro v
    rw [storage]
    split <;> rfl
  rw [changes, h]
  show recordsOf ([.recorded o.records] ++ reservation o.scope.place ++ _ ++ _) = _
  simp only [recordsOf_append, hreservation, hstorage, List.append_nil]
  rw [show recordsOf [.recorded o.records] = o.records from List.append_nil _]

theorem recordsOf_single {input : BuildInput} {home : Option Home} {parent : Option Tree}
    {kind : NodeKind} {children : List Tree}
    (h : opening input home parent kind (.node kind children) = none) :
    recordsOf (changes input home parent (.node kind children)) =
      recordsOf (single input parent kind (.node kind children)) ++
        recordsOf (changesOfAll input home (some (.node kind children)) children) := by
  rw [changes, h]
  simp

/-- A record two steps below the path of a construct, or deeper. -/
def Direct.Home.Holds (home : Home) (r : String × Option Span) : Prop :=
  Under (steps home.path) r.1 ∧ (steps home.path).length + 2 ≤ (steps r.1).length

theorem Direct.Home.holds_of_path {home : Home} (h : home.path ≠ "") (slot name : String)
    {r : String × Option Span}
    (hr : Under (steps (home.path ++ "." ++ (slot ++ "." ++ name))) r.1) : home.Holds r := by
  obtain ⟨hunder, hlength⟩ := Path.two_steps h slot name
  exact ⟨hunder.trans hr, Nat.le_trans hlength hr.length_le⟩

theorem below_end {input : BuildInput} {path : String} {side : Build.Side} {e : Tree} :
    ∀ r ∈ Build.endRecords input path side e, Below path r := by
  rw [Build.endRecords, List.forall_mem_append]
  refine ⟨fun r hr => ?_, ?_⟩
  · obtain ⟨⟨t, name, v⟩, -, rfl⟩ := List.mem_map.mp hr
    refine .inr ⟨"." ++ side.lower ++ "Validations" ++ "." ++ name, by simp, ?_⟩
    simp only [String.append_assoc]
  · simp only [List.forall_mem_cons]
    refine ⟨?_, ?_, ?_, List.forall_mem_nil _⟩
    · exact .inr ⟨"." ++ side.lower ++ "Validations", by simp, by simp only [String.append_assoc]⟩
    · exact .inr ⟨"." ++ side.lower, by simp, by simp only [String.append_assoc]⟩
    · exact .inr ⟨".injectedFieldIn" ++ side.upper, by simp, by simp only [String.append_assoc]⟩

/-- The path of a relationship. -/
def Build.Relation.path (r : Build.Relation) : String :=
  "relationships." ++ r.type ++ "." ++ r.name

theorem Build.Relation.path_eq (r : Build.Relation) :
    r.path = Collection.relationships.key ++ "." ++ (r.type ++ "." ++ r.name) := by
  show "relationships." ++ r.type ++ "." ++ r.name = _
  simp only [String.append_assoc]
  rfl

theorem Build.Relation.path_ne (r : Build.Relation) : r.path ≠ "" := by
  rw [path_eq]
  simp

theorem below_relation {input : BuildInput} {group : Option Tree} {t : Tree} :
    ∀ r ∈ (Build.relation input group t).records,
      Below (Build.relation input group t).path r := by
  have hend : ∀ side path, ∀ r ∈ ((Build.endOn t side).map
      (Build.endRecords input path side)).getD [], Below path r := by
    intro side path
    cases Build.endOn t side with
    | none => exact nofun
    | some e => exact below_end
  show ∀ r ∈ [_] ++ _ ++ _, _
  rw [List.forall_mem_append, List.forall_mem_append]
  exact ⟨⟨List.forall_mem_singleton.mpr (.inl rfl), hend _ _⟩, hend _ _⟩

/-- Relationships record among relationships. -/
theorem under_relation {input : BuildInput} {group : Option Tree} {t : Tree} :
    ∀ r ∈ (Build.relation input group t).records, Under ["relationships"] r.1 := by
  intro r hr
  have hbelow := below_relation r hr
  generalize Build.relation input group t = relation at hbelow
  have hplace : Under ["relationships"] relation.path := by
    rw [relation.path_eq]
    exact (Path.two_steps (show Collection.relationships.key ≠ "" by decide) _ _).1
  exact hplace.trans (hbelow.under relation.path_ne)

/-- The parts that open no scope record nothing but relationships. -/
theorem under_single {input : BuildInput} {parent : Option Tree} {kind : NodeKind} {t : Tree} :
    ∀ r ∈ recordsOf (single input parent kind t), Under ["relationships"] r.1 := by
  intro r hr
  obtain ⟨records, hrecords, hr⟩ := mem_recordsOf hr
  rw [recorded_single hrecords] at hr
  exact under_relation r hr

section
variable {within kind : NodeKind} {children : List Tree}

/-- Inside a part that does all it does at once there is nothing to be found. -/
theorem changesOfAll_leaf {input : BuildInput} (hleaf : kind ∈ leafKinds)
    (hholds : ∀ k ∈ kindsOf children, k ∈ NodeKind.holds within kind)
    (hparts : ∀ t ∈ children, Shaped kind t) {home : Option Home} {parent : Option Tree} :
    changesOfAll input home parent children = [] := by
  rw [changesOfAll_eq]
  refine List.flatMap_eq_nil_iff.mpr fun t ht => ?_
  exact (silent_tree (hparts t ht)
    (fun k hk => silent_of_leaf hleaf k (hholds k (kindsOf_mem ht k hk))) input home parent).2

theorem sitesAfterAll_leaf (hleaf : kind ∈ leafKinds)
    (hholds : ∀ k ∈ kindsOf children, k ∈ NodeKind.holds within kind)
    (hparts : ∀ t ∈ children, Shaped kind t) {inside : Option Collection} {parent : Option Tree} :
    sitesAfterAll inside parent children = [] := by
  rw [sitesAfterAll_eq]
  refine List.flatMap_eq_nil_iff.mpr fun t ht => ?_
  exact (silent_sites (hparts t ht)
    (fun k hk => silent_of_leaf hleaf k (hholds k (kindsOf_mem ht k hk))) inside parent).2

end

/-- What is recorded from a construct that is stored under a name: by itself, then by what
stands in it. -/
structure StandsAt (input : BuildInput) (c : Collection) (name : String) (s : Site)
    (children : List Tree) (home : Option Home) (o : Opening) : Prop where
  node : s.node = .node s.kind children
  opening : opening input home s.parent s.kind s.node = some o
  path : o.scope.path = c.key ++ "." ++ name
  collection : o.scope.place.collection = c

theorem standsAt_of_opening {input : BuildInput} {home : Option Home} {parent : Option Tree}
    {kind : NodeKind} {children : List Tree} {o : Opening}
    (h : opening input home parent kind (.node kind children) = some o)
    (hslot : o.scope.place.slot = none) :
    ∃ s, siteOf (home.map (·.collection)) parent kind (.node kind children) = [s] ∧
      StandsAt input s.collection s.name s children home o ∧ s.node = .node kind children := by
  obtain ⟨-, ⟨hsome, -⟩ | ⟨-, s, hsite, hcollection, hname, -⟩⟩ := site_of_opening h
  · exact absurd hslot hsome
  have hmem : s ∈ siteOf (home.map (·.collection)) parent kind (.node kind children) :=
    hsite ▸ List.mem_singleton_self s
  obtain ⟨c, -, rfl⟩ := List.mem_map.mp hmem
  refine ⟨_, hsite, ⟨rfl, h, ?_, hcollection.symm⟩, rfl⟩
  rcases path_of_opening h with ⟨-, hpath⟩ | ⟨_, -, slot, hsome, -⟩
  · rw [hpath, ← hcollection, ← hname]
  · exact absurd (hslot.symm.trans hsome).symm (Option.some_ne_none _)

/-- A stored construct records this below its path, itself or by what stands in it. -/
def Direct.Site.Recorded (s : Site) (input : BuildInput) (r : String × Option Span) : Prop :=
  ∃ children home o, StandsAt input s.collection s.name s children home o ∧
    (r ∈ o.records ∧ (∀ owner ∈ home, ¬owner.Checks r) ∨
      r ∈ recordsOf (changesOfAll input (some ⟨o.scope.path, s.collection⟩) (some s.node) children))

/-- **Below a name in a collection nothing is recorded but by constructs of that name**, and
by what stands in them: outside of them all records lie below what they stand in. -/
theorem under_changes {input : BuildInput} {c : Collection} {name : String}
    (hc : c ≠ .relationships) (t : Tree) : ∀ {within : NodeKind} {home : Option Home}
    {parent : Option Tree}, Shaped within t → (home.isSome → parent.isSome) →
    (∀ owner ∈ home, owner.path ≠ "") →
    (∀ s ∈ sitesAfter (home.map (·.collection)) parent t, Dotless s.name) →
    ∀ r ∈ recordsOf (changes input home parent t), Under [c.key, name] r.1 →
      (∃ owner ∈ home, owner.Holds r) ∨ ∃ s ∈ sitesAfter (home.map (·.collection)) parent t,
        s.collection = c ∧ s.name = name ∧ s.Recorded input r := by
  induction t using Tree.induct with
  | leaf => exact fun _ _ _ _ r hr => absurd hr List.not_mem_nil
  | node kind children ih =>
      intro within home parent hshaped hparent hpath hsites r hr hunder
      cases hshaped with
      | node hholds _ _ hparts =>
      rw [sitesAfter] at hsites ⊢
      obtain ⟨hinner, hhere⟩ := List.forall_mem_append.mp hsites
      -- What is found in one of the children is found here.
      have hdeeper : ∀ {u : Tree}, u ∈ children → ∀ {inside : Option Collection},
          (collectionOf (home.map (·.collection)) kind).or (home.map (·.collection)) = inside →
          (∃ s ∈ sitesAfter inside (some (.node kind children)) u,
            s.collection = c ∧ s.name = name ∧ s.Recorded input r) →
          ∃ s ∈ sitesAfterAll ((collectionOf (home.map (·.collection)) kind).or
              (home.map (·.collection))) (some (.node kind children)) children ++
              siteOf (home.map (·.collection)) parent kind (.node kind children),
            s.collection = c ∧ s.name = name ∧ s.Recorded input r := by
        rintro u hu inside rfl ⟨s, hs, hsame⟩
        rw [sitesAfterAll_eq]
        exact ⟨s, List.mem_append_left _ (List.mem_flatMap.mpr ⟨u, hu, hs⟩), hsame⟩
      cases hopening : opening input home parent kind (.node kind children) with
      | some o =>
          have hcollection := (site_of_opening hopening).1
          have hne : o.scope.path ≠ "" := by
            rcases path_of_opening hopening with ⟨-, heq⟩ | ⟨_, -, _, -, heq⟩ <;>
              · rw [heq]
                simp
          -- Whatever lies below this construct and below the name lies below what it stands in,
          -- unless the name is that of the construct.
          have hup : Under (steps o.scope.path) r.1 → (∃ owner ∈ home, owner.Holds r) ∨
              ∃ s, siteOf (home.map (·.collection)) parent kind (.node kind children) = [s] ∧
                s.collection = c ∧ s.name = name ∧
                StandsAt input s.collection s.name s children home o ∧
                s.node = .node kind children := by
            intro hbelow
            rcases path_of_opening hopening with ⟨hslot, -⟩ | ⟨owner, howner, slot, -, heq⟩
            · obtain ⟨s, hsite, hstands, hnode⟩ := standsAt_of_opening hopening hslot
              have hdotless := hhere s (hsite ▸ List.mem_singleton_self s)
              rw [hstands.path, Path.steps_key _ hdotless] at hbelow
              have hsame := (hunder.prefix_of_le hbelow (Nat.le_refl _)).eq_of_length rfl
              obtain ⟨hkey, hrest⟩ := List.cons.inj hsame
              exact .inr ⟨s, hsite, (Collection.key_inj hkey).symm, (List.cons.inj hrest).1.symm,
                hstands, hnode⟩
            · rw [heq] at hbelow
              exact .inl ⟨owner, howner, Home.holds_of_path (hpath owner howner) _ _ hbelow⟩
          rw [recordsOf_opening hopening, List.mem_append] at hr
          rcases hr with hr | hr
          · by_cases hchecks : ∃ owner ∈ home, owner.Checks r
            · obtain ⟨owner, howner, check, heq⟩ := hchecks
              refine .inl ⟨owner, howner,
                Home.holds_of_path (hpath owner howner) "validations" check ?_⟩
              have hcheck : r.1 = owner.path ++ "." ++ ("validations" ++ "." ++ check) := by
                rw [heq]
                apply String.toList_inj.mp
                simp
              rw [hcheck]
              exact List.prefix_refl _
            · have hown : ∀ owner ∈ home, ¬owner.Checks r :=
                fun owner howner hcheck => hchecks ⟨owner, howner, hcheck⟩
              rcases below_opening hopening r hr with hbelow | ⟨-, owner, howner, hcheck⟩
              · refine (hup (hbelow.under hne)).imp_right ?_
                rintro ⟨s, hsite, hcoll, hname, hstands, -⟩
                rw [hsite]
                exact ⟨s, List.mem_append_right _ (List.mem_singleton_self s), hcoll, hname,
                  children, home, o, hstands, .inl ⟨hr, hown⟩⟩
              · exact absurd hcheck (hown owner howner)
          · have hall := hr
            rw [changesOfAll_eq, recordsOf_flatMap, List.mem_flatMap] at hr
            obtain ⟨u, hu, hr⟩ := hr
            rw [sitesAfterAll_eq, hcollection] at hinner
            rcases @ih u hu kind (some ⟨o.scope.path, o.scope.place.collection⟩) _ (hparts u hu)
              (fun _ => rfl) (fun owner howner => Option.mem_some.mp howner ▸ hne)
              (fun s hs => hinner s (List.mem_flatMap.mpr ⟨u, hu, hs⟩)) r hr hunder with
              ⟨owner, howner, hdeep⟩ | hfound
            · obtain rfl := Option.mem_some.mp howner
              refine (hup hdeep.1).imp_right ?_
              rintro ⟨s, hsite, hcoll, hname, hstands, hnode⟩
              rw [hsite]
              refine ⟨s, List.mem_append_right _ (List.mem_singleton_self s), hcoll, hname,
                children, home, o, hstands, .inr ?_⟩
              rw [hnode, ← hstands.collection]
              exact hall
            · exact .inr (hdeeper hu hcollection hfound)
      | none =>
          rw [recordsOf_single hopening, List.mem_append] at hr
          rcases hr with hr | hr
          · have hplace := (under_single r hr).prefix_of_le hunder (Nat.le_succ 1)
            have hkey : c.key = Collection.relationships.key :=
              (List.cons_prefix_cons.mp hplace).1.symm
            exact absurd (Collection.key_inj hkey) hc
          · rcases site_of_single hparent hopening with ⟨hleaf, -⟩ | ⟨hnone, -⟩
            · rw [changesOfAll_leaf hleaf hholds hparts] at hr
              exact absurd hr List.not_mem_nil
            · have hsame : (collectionOf (home.map (·.collection)) kind).or
                  (home.map (·.collection)) = home.map (·.collection) := by
                rw [hnone, Option.none_or]
              rw [hsame, sitesAfterAll_eq] at hinner
              rw [changesOfAll_eq, recordsOf_flatMap, List.mem_flatMap] at hr
              obtain ⟨u, hu, hr⟩ := hr
              exact (ih u hu (hparts u hu) (fun _ => rfl) hpath
                (fun s hs => hinner s (List.mem_flatMap.mpr ⟨u, hu, hs⟩)) r hr hunder).imp_right
                (hdeeper hu hsame)

end DomainModel
