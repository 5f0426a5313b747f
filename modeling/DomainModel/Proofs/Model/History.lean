/-
An index is what its history of calls makes it.

An index forgets: recording a path again replaces its span.  Here it is compared with all
the calls that were ever made, where nothing is lost and a call is known by its number.
`Latest` picks the call of a path that counts.  One more call makes itself the latest of
its path and leaves those of all other paths (`latest_concat`), and so does `record`, so
an index keeps up with its history for good (`follows_ofHistory`).  Whatever an index
answers can therefore be read off the calls: spans, the order of the paths, and where a
position leads (`ofHistory_answers`).
-/
import DomainModel.Proofs.Model.Locations

namespace DomainModel.Locations

/-- Calls that recorded spans, the first one first. -/
abbrev History := List (String × Span)

/-- The index that some calls make, one after the other. -/
def ofHistory (history : History) : Locations :=
  history.foldl (fun index call => index.record call.1 call.2) .empty

/-- The call with this number recorded a path with a span, and no later one is of that path. -/
structure Latest (history : History) (turn : Nat) (path : String) (span : Span) : Prop where
  call : history[turn]? = some (path, span)
  last : ∀ turn' span', history[turn']? = some (path, span') → turn' ≤ turn

/-- The call that a position leads to: of the latest calls of all paths whose spans contain
the position it has the shortest span, and of those with spans as short it came last. -/
structure Leads (history : History) (p : Position) (turn : Nat) (path : String) (span : Span) :
    Prop where
  latest : Latest history turn path span
  contains : span.contains p = true
  best : ∀ turn' path' span', Latest history turn' path' span' → span'.contains p = true →
    span.length < span'.length ∨ span.length = span'.length ∧ turn' ≤ turn

section
variable {history : History} {turn : Nat} {path path' : String} {span span' : Span}

/-- **One more call is the latest of its path**, and all others stay what they were. -/
theorem latest_concat : Latest (history ++ [(path, span)]) turn path' span' ↔
    turn = history.length ∧ path' = path ∧ span' = span ∨
      path' ≠ path ∧ Latest history turn path' span' := by
  have hnew : (history ++ [(path, span)])[history.length]? = some (path, span) :=
    List.getElem?_concat_length
  have hold : ∀ {n call}, (history ++ [(path, span)])[n]? = some call → n ≠ history.length →
      history[n]? = some call := by
    intro n call hcall hn
    have hlt := (List.getElem?_eq_some_iff.mp hcall).1
    rw [List.length_append, List.length_singleton] at hlt
    rwa [List.getElem?_append_left (by omega)] at hcall
  constructor
  · rintro ⟨hcall, hlast⟩
    by_cases hturn : turn = history.length
    · rw [hturn, hnew] at hcall
      obtain ⟨rfl, rfl⟩ := Prod.mk.inj (Option.some.inj hcall)
      exact .inl ⟨hturn, rfl, rfl⟩
    · have hin := hold hcall hturn
      have hlt := (List.getElem?_eq_some_iff.mp hin).1
      refine .inr ⟨?_, hin, fun n span'' hn => hlast n span'' ?_⟩
      · rintro rfl
        exact absurd (hlast _ _ hnew) (Nat.not_le_of_lt hlt)
      · rwa [List.getElem?_append_left (List.getElem?_eq_some_iff.mp hn).1]
  · rintro (⟨rfl, rfl, rfl⟩ | ⟨hne, hcall, hlast⟩)
    · refine ⟨hnew, fun n span'' hn => ?_⟩
      have hlt := (List.getElem?_eq_some_iff.mp hn).1
      rw [List.length_append, List.length_singleton] at hlt
      exact Nat.le_of_lt_succ hlt
    · refine ⟨?_, fun n span'' hn => ?_⟩
      · rwa [List.getElem?_append_left (List.getElem?_eq_some_iff.mp hcall).1]
      · refine hlast n span'' (hold hn ?_)
        rintro rfl
        exact hne (Prod.mk.inj (Option.some.inj (hn.symm.trans hnew))).1

end

/-! ### Keeping up -/

/-- An index has kept up with a history. -/
structure Follows (index : Locations) (history : History) : Prop where
  turns : index.turns = history.length
  order : Dict.keys index.entries = (history.map (·.1)).eraseDups
  entry : ∀ path (e : Entry),
    Dict.get? index.entries path = some e ↔ Latest history e.turn path e.span

theorem Follows.empty : Follows .empty [] where
  turns := rfl
  order := rfl
  entry := by
    intro path e
    constructor
    · intro h
      nomatch h
    · rintro ⟨hcall, -⟩
      rw [List.getElem?_nil] at hcall
      nomatch hcall

/-- **One more call does not leave an index behind.** -/
theorem Follows.record {index : Locations} {history : History} (h : index.Follows history)
    (path : String) (span : Span) :
    (index.record path span).Follows (history ++ [(path, span)]) where
  turns := by
    rw [List.length_append, List.length_singleton, ← h.turns]
    rfl
  order := by
    rw [Locations.record, Dict.keys_insert, h.order, List.map_append, List.map_singleton,
      eraseDups_concat]
    simp only [List.mem_eraseDups]
  entry := by
    intro path' e
    rw [Locations.record, Dict.get?_insert, latest_concat, h.turns, ← h.entry]
    obtain ⟨span', turn⟩ := e
    by_cases hpath : path' = path
    · simp [hpath, and_comm, eq_comm]
    · simp [hpath]

/-- **An index keeps up with its history.** -/
theorem follows_ofHistory (history : History) : (ofHistory history).Follows history := by
  induction history using List.reverseRecOn with
  | nil => exact .empty
  | append_singleton history call ih =>
      rw [ofHistory, List.foldl_append]
      exact ih.record call.1 call.2

/-! ### Answers -/

namespace Follows

variable {index : Locations} {history : History}

theorem proper (h : index.Follows history) : index.Proper := by
  rw [Proper, h.order]
  exact nodup_eraseDups _

theorem latest_of_mem (h : index.Follows history) {e : String × Entry} (he : e ∈ index.entries) :
    Latest history e.2.turn e.1 e.2.span :=
  (h.entry _ _).mp (Dict.get?_of_mem h.proper he)

theorem mem_of_latest (h : index.Follows history) {turn : Nat} {path : String} {span : Span}
    (hlatest : Latest history turn path span) : (path, ⟨span, turn⟩) ∈ index.entries :=
  Dict.mem_of_get? ((h.entry path ⟨span, turn⟩).mpr hlatest)

theorem get?_iff (h : index.Follows history) {path : String} {span : Span} :
    index.get? path = some span ↔ ∃ turn, Latest history turn path span := by
  rw [get?, Option.map_eq_some_iff]
  constructor
  · rintro ⟨e, he, rfl⟩
    exact ⟨e.turn, (h.entry path e).mp he⟩
  · rintro ⟨turn, hlatest⟩
    exact ⟨⟨span, turn⟩, (h.entry path ⟨span, turn⟩).mpr hlatest, rfl⟩

theorem get?_eq_none_iff (h : index.Follows history) {path : String} :
    index.get? path = none ↔ path ∉ history.map (·.1) := by
  rw [get?, Option.map_eq_none_iff, Dict.get?_eq_none_iff, h.order, List.mem_eraseDups]

/-- An entry that is not to be preferred to another one is longer, or as long and not later. -/
theorem best_of_not_precedes {r s : Entry} (h : r.precedes s = false) :
    s.span.length < r.span.length ∨ s.span.length = r.span.length ∧ r.turn ≤ s.turn := by
  simp only [Entry.precedes, Bool.or_eq_false_iff, Bool.and_eq_false_iff, decide_eq_false_iff_not,
    beq_eq_false_iff_ne] at h
  omega

/-- Where some span contains a position, the position leads to a call and resolves to its path. -/
theorem resolve_of_contains (h : index.Follows history) {turn : Nat} {path : String} {span : Span}
    {p : Position} (hlatest : Latest history turn path span) (hp : span.contains p = true) :
    ∃ turn' path' span', index.resolve p = some path' ∧ Leads history p turn' path' span' := by
  obtain ⟨kept, hkept, hresolve, hcontains, hbest⟩ := resolve_spec (h.mem_of_latest hlatest) hp
  refine ⟨kept.2.turn, kept.1, kept.2.span, hresolve, h.latest_of_mem hkept, hcontains, ?_⟩
  intro turn' path' span' hlatest' hp'
  exact best_of_not_precedes (hbest _ (h.mem_of_latest hlatest') hp')

theorem resolve_eq_none_iff (h : index.Follows history) {p : Position} :
    index.resolve p = none ↔
      ∀ turn path span, Latest history turn path span → span.contains p = false := by
  constructor
  · intro hnone turn path span hlatest
    by_contra hp
    obtain ⟨_, _, _, hsome, -⟩ := h.resolve_of_contains hlatest (by simpa using hp)
    exact Option.some_ne_none _ (hsome.symm.trans hnone)
  · intro hall
    have hfilter : index.entries.filter (fun e => e.2.span.contains p) = [] := by
      refine List.filter_eq_nil_iff.mpr fun e he => ?_
      rw [hall _ _ _ (h.latest_of_mem he)]
      exact Bool.false_ne_true
    rw [resolve, hfilter]
    rfl

/-- A position leads to one call at most. -/
theorem leads_unique {p : Position} {turn turn' : Nat} {path path' : String} {span span' : Span}
    (h : Leads history p turn path span) (h' : Leads history p turn' path' span') : path = path' := by
  have hle := h.best _ _ _ h'.latest h'.contains
  have hge := h'.best _ _ _ h.latest h.contains
  obtain rfl : turn = turn' := by omega
  exact (Prod.mk.inj (Option.some.inj (h.latest.call.symm.trans h'.latest.call))).1

/-- **A position resolves to the path of the call that it leads to.** -/
theorem resolve_eq_some_iff (h : index.Follows history) {p : Position} {path : String} :
    index.resolve p = some path ↔ ∃ turn span, Leads history p turn path span := by
  constructor
  · intro hsome
    have hcontained : ∃ turn path span, Latest history turn path span ∧ span.contains p = true := by
      by_contra hnone
      push Not at hnone
      have hresolve := h.resolve_eq_none_iff.mpr fun turn path span hlatest => by
        simpa using hnone turn path span hlatest
      exact Option.some_ne_none _ (hsome.symm.trans hresolve)
    obtain ⟨turn, path', span, hlatest, hp⟩ := hcontained
    obtain ⟨turn', path'', span', hresolve, hleads⟩ := h.resolve_of_contains hlatest hp
    obtain rfl := Option.some.inj (hsome.symm.trans hresolve)
    exact ⟨turn', span', hleads⟩
  · rintro ⟨turn, span, hleads⟩
    obtain ⟨_, path', _, hresolve, hleads'⟩ := h.resolve_of_contains hleads.latest hleads.contains
    rw [hresolve, leads_unique hleads hleads']

end Follows

/-- **An index answers as its history of calls does.**  A path leads to the span recorded for it
last; the paths are listed in the order of their first calls, each once and with that span; and
a position resolves to the path of the call that it leads to, or to none if no latest span
contains it. -/
theorem ofHistory_answers (history : History) :
    (∀ path, ((ofHistory history).get? path = none ↔ path ∉ history.map (·.1)) ∧
      ∀ span, (ofHistory history).get? path = some span ↔ ∃ turn, Latest history turn path span) ∧
    ((ofHistory history).toList.map (·.1) = (history.map (·.1)).eraseDups ∧
      ∀ l ∈ (ofHistory history).toList, ∃ turn, Latest history turn l.1 l.2) ∧
    ∀ p, ((ofHistory history).resolve p = none ↔
        ∀ turn path span, Latest history turn path span → span.contains p = false) ∧
      ∀ path, (ofHistory history).resolve p = some path ↔
        ∃ turn span, Leads history p turn path span := by
  have h := follows_ofHistory history
  refine ⟨fun path => ⟨h.get?_eq_none_iff, fun span => h.get?_iff⟩, ⟨?_, fun l hl => ?_⟩,
    fun p => ⟨h.resolve_eq_none_iff, fun path => h.resolve_eq_some_iff⟩⟩
  · rw [← h.order, toList, List.map_map]
    rfl
  · obtain ⟨e, he, rfl⟩ := mem_toList.mp hl
    exact ⟨e.2.turn, h.latest_of_mem he⟩

/-- Recording a path again makes it the latest, and leaves it in its place. -/
example :
    let span : Span := ⟨⟨1, 0⟩, ⟨1, 5⟩, ⟨0, 5⟩⟩
    let index := ofHistory [("a", span), ("b", span), ("a", span)]
    index.resolve ⟨1, 2⟩ = some "a" ∧ index.toList.map (·.1) = ["a", "b"] := by
  decide

end DomainModel.Locations
