/-
Events are found by their numbers.

An event is recorded by its name and then by its number, in the list or in a group of it.
Names do not begin with digits and numbers have no dots, so no other record has such a path:
what is recorded last under the numbers of an event is the event (`span?_event`).
-/
import DomainModel.Proofs.Build.Quotes
import DomainModel.Proofs.Value.Selection

namespace DomainModel

open Direct
open DomainModel.Path (Under steps)
open Grammar (Worded worded_eventGroup worded_withEvents)

/-! ### Numbers in paths -/

namespace Path

/-- The path of what has these numbers below another path, from the outside in. -/
def numbered (base : String) : List Nat → String
  | [] => base
  | n :: ns => numbered (base ++ "." ++ toString n) ns

theorem steps_numbered {base : String} (h : base ≠ "") (place : List Nat) :
    steps (numbered base place) = steps base ++ place.map toString := by
  induction place generalizing base with
  | nil => simp [numbered]
  | cons n ns ih =>
      have hne : base ++ "." ++ toString n ≠ "" := by simp
      rw [numbered, ih hne, steps_below h (dotless_toString n)]
      simp

end Path

/-! ### Places of events -/

namespace Tree.EventEntry

/-- The alternatives of a group. -/
def alternatives : EventEntry → List Tree
  | single _ => []
  | group _ alternatives => alternatives

/-- The events of an entry. -/
def events : EventEntry → List Tree
  | single node => [node]
  | group _ alternatives => alternatives

end Tree.EventEntry

/-- The entries of a list by number, each in front of the alternatives in it. -/
def Build.eventPlaces (entries : List Tree.EventEntry) : List (List Nat × Tree) :=
  entries.zipIdx.flatMap fun (entry, i) =>
    ([i], entry.node) :: entry.alternatives.zipIdx.map fun (event, j) => ([i, j], event)

theorem mem_eventPlaces {entries : List Tree.EventEntry} {place : List Nat} {t : Tree} :
    (place, t) ∈ Build.eventPlaces entries ↔ ∃ i entry, entries[i]? = some entry ∧
      (place = [i] ∧ t = entry.node ∨
        ∃ j, place = [i, j] ∧ entry.alternatives[j]? = some t) := by
  simp only [Build.eventPlaces, List.mem_flatMap, Prod.exists, List.mem_cons, List.mem_map,
    List.mk_mem_zipIdx_iff_getElem?, Prod.mk.injEq]
  constructor
  · rintro ⟨entry, i, hentry, ⟨rfl, rfl⟩ | ⟨event, j, hevent, rfl, rfl⟩⟩
    · exact ⟨i, entry, hentry, .inl ⟨rfl, rfl⟩⟩
    · exact ⟨i, entry, hentry, .inr ⟨j, rfl, hevent⟩⟩
  · rintro ⟨i, entry, hentry, ⟨rfl, rfl⟩ | ⟨j, rfl, hevent⟩⟩
    · exact ⟨entry, i, hentry, .inl ⟨rfl, rfl⟩⟩
    · exact ⟨entry, i, hentry, .inr ⟨t, j, hevent, rfl, rfl⟩⟩

/-- At a place there is one tree. -/
theorem eventPlaces_unique {entries : List Tree.EventEntry} {place : List Nat} {t u : Tree}
    (ht : (place, t) ∈ Build.eventPlaces entries) (hu : (place, u) ∈ Build.eventPlaces entries) :
    t = u := by
  obtain ⟨i, entry, hentry, ht⟩ := mem_eventPlaces.mp ht
  obtain ⟨i', entry', hentry', hu⟩ := mem_eventPlaces.mp hu
  have hsame : i = i' → entry = entry' := by
    rintro rfl
    exact Option.some.inj (hentry.symm.trans hentry')
  rcases ht with ⟨rfl, rfl⟩ | ⟨j, rfl, ht⟩ <;> rcases hu with ⟨hplace, rfl⟩ | ⟨j', hplace, hu⟩
  · simp_all
  · simp at hplace
  · simp at hplace
  · simp_all

/-! ### Records of events -/

/-- A record of an event has its name or its numbers. -/
theorem mem_withEventsRecords {input : BuildInput} {path : String} {t list : Tree}
    (hlist : t.child? .withEvents = some list) {r : String × Option Span}
    (hr : r ∈ Build.withEventsRecords input path t) :
    r.1 = path ++ ".withEvents" ∨
      (∃ entry ∈ list.eventEntries, ∃ event ∈ entry.events,
        r.1 = path ++ ".withEvents" ++ "." ++ event.word?.getD "") ∨
      ∃ place event, (place, event) ∈ Build.eventPlaces list.eventEntries ∧
        r = (Path.numbered (path ++ ".withEvents") place, input.locate (some event)) := by
  rw [Build.withEventsRecords, hlist] at hr
  rcases List.mem_cons.mp hr with rfl | hr
  · exact .inl rfl
  · obtain ⟨⟨entry, i⟩, hentry, hr⟩ := List.mem_flatMap.mp hr
    have hindex : list.eventEntries[i]? = some entry := List.mk_mem_zipIdx_iff_getElem?.mp hentry
    have hmem : entry ∈ list.eventEntries := List.fst_mem_of_mem_zipIdx hentry
    refine .inr ?_
    cases entry with
    | single node =>
        rcases List.mem_pair.mp hr with rfl | rfl
        · exact .inl ⟨_, hmem, node, List.mem_singleton_self _, rfl⟩
        · exact .inr ⟨[i], node, mem_eventPlaces.mpr ⟨i, _, hindex, .inl ⟨rfl, rfl⟩⟩, rfl⟩
    | group node alternatives =>
        rcases List.mem_cons.mp hr with rfl | hr
        · exact .inr ⟨[i], node, mem_eventPlaces.mpr ⟨i, _, hindex, .inl ⟨rfl, rfl⟩⟩, rfl⟩
        · obtain ⟨⟨event, j⟩, hevent, hr⟩ := List.mem_flatMap.mp hr
          rcases List.mem_pair.mp hr with rfl | rfl
          · exact .inl ⟨_, hmem, event, List.fst_mem_of_mem_zipIdx hevent, rfl⟩
          · refine .inr ⟨[i, j], event, mem_eventPlaces.mpr ⟨i, _, hindex, .inr ⟨j, rfl, ?_⟩⟩, rfl⟩
            exact List.mk_mem_zipIdx_iff_getElem?.mp hevent

/-- At every place an event is recorded. -/
theorem place_mem_records {input : BuildInput} {path : String} {t list event : Tree}
    (hlist : t.child? .withEvents = some list) {place : List Nat}
    (h : (place, event) ∈ Build.eventPlaces list.eventEntries) :
    (Path.numbered (path ++ ".withEvents") place, input.locate (some event)) ∈
      Build.withEventsRecords input path t := by
  obtain ⟨i, entry, hentry, hplace⟩ := mem_eventPlaces.mp h
  have hindex : (entry, i) ∈ list.eventEntries.zipIdx := List.mk_mem_zipIdx_iff_getElem?.mpr hentry
  rw [Build.withEventsRecords, hlist]
  refine List.mem_cons_of_mem _ (List.mem_flatMap.mpr ⟨_, hindex, ?_⟩)
  rcases hplace with ⟨rfl, rfl⟩ | ⟨j, rfl, hevent⟩
  · cases entry with
    | single node => exact List.mem_cons_of_mem _ (List.mem_singleton_self _)
    | group node alternatives => exact List.mem_cons_self ..
  · cases entry with
    | single node => simp [Tree.EventEntry.alternatives] at hevent
    | group node alternatives =>
        refine List.mem_cons_of_mem _ (List.mem_flatMap.mpr ⟨(event, j), ?_, ?_⟩)
        · exact List.mk_mem_zipIdx_iff_getElem?.mpr hevent
        · exact List.mem_cons_of_mem _ (List.mem_singleton_self _)

/-- A text that can stand for an event among its numbers. -/
def IsEventName (name : String) : Prop :=
  Dotless name ∧ ∀ c ∈ name.toList.head?, c.isDigit = false

theorem IsEventName.ne_toString {name : String} (h : IsEventName name) (n : Nat) :
    name ≠ toString n := by
  rintro rfl
  obtain ⟨hne, hdigits⟩ := Path.digits_toString n
  obtain ⟨c, hc⟩ : ∃ c, (toString n).toList.head? = some c :=
    ⟨_, List.head?_eq_some_head hne⟩
  have hdigit := hdigits c (List.mem_of_head? hc)
  rw [h.2 c hc] at hdigit
  exact Bool.false_ne_true hdigit

/-- No number of an event is its name. -/
theorem IsEventName.path_ne {name : String} (h : IsEventName name) {base : String}
    (hbase : base ≠ "") (n : Nat) (place : List Nat) :
    Path.numbered base (n :: place) ≠ base ++ "." ++ name := by
  intro heq
  have hsteps := congrArg steps heq
  rw [Path.steps_numbered hbase, Path.steps_below hbase h.1] at hsteps
  have hnumber := List.append_cancel_left hsteps
  rw [List.map_cons, List.cons.injEq] at hnumber
  exact h.ne_toString n hnumber.1.symm

/-- Of what an operation records besides its events, nothing lies below other keys. -/
theorem free_rest {path key : String} {span span' span'' : Option Span} (hpath : path ≠ "")
    (hname : key ≠ "name") (hparameter : key ≠ "parameter") {rest : List String} :
    ∀ r ∈ [(path, span), (path ++ ".name", span'), (path ++ ".parameter", span'')],
      steps r.1 ≠ steps path ++ key :: rest := by
  intro r hr hsteps
  simp only [List.mem_cons, List.not_mem_nil, or_false] at hr
  rcases hr with rfl | rfl | rfl
  · simp at hsteps
  · rw [Path.steps_dot ".name" "name" hpath rfl (by decide)] at hsteps
    simp_all
  · rw [Path.steps_dot ".parameter" "parameter" hpath rfl (by decide)] at hsteps
    simp_all

/-- Nor does any of its events. -/
theorem free_operation {input : BuildInput} {path key : String} {t : Tree} (hpath : path ≠ "")
    (hkey : key ∉ ["withEvents", "name", "parameter"]) {rest : List String} :
    ∀ r ∈ Build.operationRecords input path t, steps r.1 ≠ steps path ++ key :: rest := by
  intro r hr
  simp only [List.mem_cons, List.not_mem_nil, or_false, not_or] at hkey
  obtain ⟨hevents, hname, hparameter⟩ := hkey
  rw [Build.operationRecords, List.mem_append] at hr
  rcases hr with hr | hr
  · intro hsteps
    have hunder := (below_withEvents r hr).under (by simp)
    rw [Path.steps_dot ".withEvents" "withEvents" hpath rfl (by decide), Under, hsteps,
      List.prefix_append_right_inj] at hunder
    exact hevents (List.cons_prefix_cons.mp hunder).1.symm
  · exact free_rest hpath hname hparameter r hr

/-- **What a method or a command records last at the place of an event is the event.** -/
theorem span?_event {input : BuildInput} {path : String} {t list event : Tree}
    (hpath : path ≠ "") (hlist : t.child? .withEvents = some list)
    (hnames : ∀ entry ∈ list.eventEntries, ∀ event ∈ entry.events,
      IsEventName (event.word?.getD "")) {place : List Nat}
    (hplace : (place, event) ∈ Build.eventPlaces list.eventEntries) {span : Span}
    (hspan : input.locate (some event) = some span) :
    Records.span? (Build.operationRecords input path t)
      (Path.numbered (path ++ ".withEvents") place) = some span := by
  have hne : path ++ ".withEvents" ≠ "" := by simp
  have hbase := Path.steps_dot ".withEvents" "withEvents" hpath rfl (by decide)
  have hsteps := Path.steps_numbered hne place
  obtain ⟨n, ns, rfl⟩ : ∃ n ns, place = n :: ns := by
    obtain ⟨i, -, -, ⟨rfl, -⟩ | ⟨j, rfl, -⟩⟩ := mem_eventPlaces.mp hplace <;> simp
  rw [Build.operationRecords, Records.span?_of_front]
  · refine Records.span?_of_mem (hspan ▸ place_mem_records hlist hplace) fun r hr heq => ?_
    have hsame := congrArg steps heq
    rw [hsteps] at hsame
    rcases mem_withEventsRecords hlist hr with hself | ⟨entry, hentry, event', hevent, hname⟩ |
      ⟨place', event', hplace', rfl⟩
    · rw [hself] at hsame
      simp at hsame
    · have hword := hnames entry hentry event' hevent
      exact absurd (heq.symm.trans hname) (hword.path_ne hne n ns)
    · rw [Path.steps_numbered hne] at hsame
      have hnumbers := List.map_injective_iff.mpr Path.toString_injective
        (List.append_cancel_left hsame)
      rw [← hnumbers] at hplace
      rw [eventPlaces_unique hplace' hplace]
      exact hspan
  · intro r hr heq
    have hsame := congrArg steps heq
    rw [hsteps, hbase, List.append_assoc] at hsame
    exact free_rest hpath (by decide) (by decide) r hr hsame

/-! ### Events are words -/

section
variable {source : String}

/-- A name of the text begins as no number does. -/
theorem isEventName_token {token : Token} (h : token ∈ (parse source).tree.leaves)
    (hident : token.kind = .ident) : IsEventName token.text := by
  rw [leaves_parse] at h
  refine ⟨scan_ident_dotless h hident, fun c hc => ?_⟩
  obtain ⟨first, cs, htext, hstart, -⟩ := (scan_spelled h).ident hident
  rw [htext, List.head?_cons] at hc
  obtain rfl := Option.some.inj hc
  by_contra hdigit
  rw [Bool.not_eq_false] at hdigit
  rw [Lexer.not_isWordStart_of_isDigit hdigit] at hstart
  exact Bool.false_ne_true hstart

/-- A node of one name bears it. -/
theorem bears_event {kind : NodeKind} {word : Token} (h : Piece source (.node kind [.leaf word]))
    (hident : word.kind = .ident) : ∃ name, (Tree.node kind [.leaf word]).word? = some name ∧
      IsEventName name ∧ Bears source (.node kind [.leaf word]) name := by
  have hmem : word ∈ (Tree.node kind [.leaf word]).leaves := List.mem_singleton_self _
  exact ⟨word.text, Tree.word?_word hident, isEventName_token (h.mem_leaves hmem) hident,
    bears_token h hmem⟩

/-- **Every event of a list is a word**, alone or in a group. -/
theorem event_word {list : Tree} (h : Piece source list) (hkind : list.kind? = some .withEvents)
    {entry : Tree.EventEntry} (hentry : entry ∈ list.eventEntries) {event : Tree}
    (hevent : event ∈ entry.events) : Piece source event ∧
      ∃ kind word, event = .node kind [.leaf word] ∧ word.kind = .ident := by
  have hform : (∃ word, event.children = [.leaf word] ∧ word.kind = .ident) →
      ∃ kind word, event = .node kind [.leaf word] ∧ word.kind = .ident := by
    rintro ⟨word, hchildren, hident⟩
    cases event with
    | leaf => exact nomatch hchildren
    | node kind children => exact ⟨kind, word, congrArg (Tree.node kind) hchildren, hident⟩
  obtain ⟨children, rfl⟩ := Tree.exists_node hkind
  obtain ⟨child, hchild, hentry⟩ := List.mem_filterMap.mp hentry
  have hpiece := h.child hchild
  split at hentry
  · obtain rfl := Option.some.inj hentry
    obtain rfl := List.mem_singleton.mp hevent
    exact ⟨hpiece, hform (worded_withEvents h _ hchild (beq_self_eq_true _))⟩
  · obtain rfl := Option.some.inj hentry
    obtain ⟨hinner, hnode⟩ := List.mem_filter.mp hevent
    exact ⟨hpiece.child hinner, hform (worded_eventGroup hpiece _ hinner hnode)⟩
  · exact nomatch hentry

end

end DomainModel
