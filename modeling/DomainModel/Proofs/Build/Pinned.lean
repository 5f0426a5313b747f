/-
Every event is what its number leads to.

An event is recorded under its name and under its number with one span, and where names repeat
and methods are declared again, some of these paths move and others stay behind.  What decides
is the order of all records.  A word is a single token, so no recorded span that contains a
position inside it is shorter, and one as long begins where the word does
(`resolve_of_lastAt`).  The number of an event is recorded behind its name, and behind that
comes nothing that begins with the word: neither what follows in the list, nor what else the
method records, nor methods and constructs further on (`lastAt_event`).
-/
import DomainModel.Proofs.Build.Starts
import DomainModel.Proofs.Check.Located
import DomainModel.Proofs.Model.History
import DomainModel.Proofs.Source.Index

namespace DomainModel

open Direct
open Grammar (keyword_withEvents)
open Locations (History Latest Leads Follows)

/-! ### The index of a text follows its records -/

/-- The calls that some records make. -/
def Records.calls (rs : Records) : History := rs.filterMap fun r => r.2.map (r.1, ·)

theorem Records.calls_append (rs rs' : Records) : calls (rs ++ rs') = calls rs ++ calls rs' :=
  List.filterMap_append

/-- In the history the last record of some that begin with a token is the last call of them. -/
theorem Records.LastAt.call {rs : Records} {path : String} {span : Span} (h : rs.LastAt path span) :
    ∃ turn : Nat, rs.calls[turn]? = some (path, span) ∧ ∀ (turn' : Nat) path' (span' : Span),
      rs.calls[turn']? = some (path', span') → span'.range.start = span.range.start →
        turn' ≤ turn := by
  obtain ⟨front, back, rfl, hback⟩ := h
  have hcalls : calls (front ++ (path, some span) :: back) =
      calls front ++ (path, span) :: calls back := by
    rw [calls_append]
    rfl
  refine ⟨(calls front).length, ?_, fun turn' path' span' hcall hsame => ?_⟩
  · rw [hcalls, List.getElem?_append_right (Nat.le_refl _), Nat.sub_self]
    rfl
  · by_contra hlt
    obtain ⟨k, rfl⟩ := Nat.exists_eq_add_of_lt (Nat.lt_of_not_le hlt)
    rw [hcalls, Nat.add_assoc, List.getElem?_append_right (Nat.le_add_right ..),
      Nat.add_sub_cancel_left, List.getElem?_cons_succ] at hcall
    obtain ⟨r, hr, hcall⟩ := List.mem_filterMap.mp (List.mem_of_getElem? hcall)
    obtain ⟨s, hs, hcall⟩ := Option.map_eq_some_iff.mp hcall
    obtain ⟨-, rfl⟩ := Prod.mk.inj hcall
    exact hback r hr s hs hsame

theorem Locations.Follows.foldl (rs : Records) : ∀ {index : Locations} {history : History},
    index.Follows history → Follows
      (rs.foldl (fun index r => match r.2 with
        | some span => index.record r.1 span
        | none => index) index) (history ++ rs.calls) := by
  induction rs with
  | nil =>
      intro index history h
      rwa [Records.calls, List.filterMap_nil, List.append_nil]
  | cons r rs ih =>
      intro index history h
      obtain ⟨path, span⟩ := r
      cases span with
      | none => exact ih h
      | some span =>
          have hcalls : Records.calls ((path, some span) :: rs) =
              [(path, span)] ++ Records.calls rs := rfl
          rw [hcalls, ← List.append_assoc]
          exact ih (h.record path span)

theorem follows_changes (cs : List Change) : ∀ {d : Draft} {history : History},
    d.locations.Follows history →
      (cs.foldl Draft.change d).locations.Follows (history ++ (recordsOf cs).calls) := by
  induction cs with
  | nil =>
      intro d history h
      rwa [recordsOf_nil, Records.calls, List.filterMap_nil, List.append_nil]
  | cons change cs ih =>
      intro d history h
      have hsplit : recordsOf (change :: cs) = recordsOf [change] ++ recordsOf cs := by
        rw [← recordsOf_append]
        rfl
      rw [hsplit, Records.calls_append, ← List.append_assoc, List.foldl_cons]
      refine ih ?_
      cases change with
      | recorded records =>
          rw [show recordsOf [.recorded records] = records from List.append_nil _]
          exact h.foldl records
      | _ =>
          rw [show Records.calls (recordsOf [_]) = [] from rfl, List.append_nil]
          exact h

/-- The records of a whole text. -/
abbrev Direct.allRecords (naming : Naming) (source : String) : Records :=
  recordsOf (changes ⟨naming, source.toList⟩ none none (parse source).tree)

theorem follows_model (naming : Naming) (source : String) :
    (Direct.model naming source).locations.Follows (allRecords naming source).calls :=
  @follows_changes (changes ⟨naming, source.toList⟩ none none (parse source).tree) {} [] .empty

/-! ### Positions in a word -/

section
variable {naming : Naming} {source path : String} {span : Span} {token : Token} {n : Nat}

/-- What is cut from a text and has a part of a token has all of it. -/
theorem Cut.within_of_token (h : Cut source span) (htoken : token ∈ scan source)
    (hstart : token.start < n) (hstop : n < token.stop) (hfrom : span.range.start ≤ n)
    (hto : n ≤ span.range.stop) : token.range.Within span.range := by
  obtain ⟨r, -, -, rfl⟩ := h
  obtain ⟨k, hk, rfl⟩ := List.getElem_of_mem htoken
  have hcontiguous := scan_contiguous source
  have hbegin := hcontiguous.start_eq hk
  have hend := hcontiguous.stop_eq hk
  replace hfrom : offset (scan source) r.start ≤ n := hfrom
  replace hto : n ≤ offset (scan source) r.stop := hto
  constructor
  · show offset (scan source) r.start ≤ (scan source)[k].start
    rw [hbegin]
    refine offset_mono _ (Nat.le_of_not_lt fun hlt => ?_)
    have hmono : offset (scan source) (k + 1) ≤ _ := offset_mono (scan source) hlt
    omega
  · show _ ≤ offset (scan source) r.stop
    rw [Token.range, hend]
    refine offset_mono _ (Nat.succ_le_of_lt (Nat.lt_of_not_le fun hle => ?_))
    have hmono := offset_mono (scan source) hle
    omega

/-- **A position inside a word leads to the last path that is recorded for the word.**  It has
to lead somewhere else only if that path has moved on. -/
theorem resolve_of_lastAt (hlast : (allRecords naming source).LastAt path span)
    (hlocation : (Direct.model naming source).location? path = some span)
    (htoken : token ∈ scan source) (hspan : span = Source.span source.toList token.range)
    (hn : Source.Boundary source.toList n) (hstart : token.start < n) (hstop : n < token.stop) :
    (Direct.model naming source).resolve (Source.position source.toList n) = some path := by
  obtain ⟨-, hcut⟩ := cut_locations naming source
  have hfollows := follows_model naming source
  have hreaches : ∀ {turn path' span'}, Latest (allRecords naming source).calls turn path' span' →
      span'.contains (Source.position source.toList n) = true →
        token.range.Within span'.range := by
    intro turn path' span' hlatest hcontains
    have hmem := hcut _ (hfollows.mem_of_latest hlatest)
    obtain ⟨hfrom, hto⟩ := (hmem.contains_iff hn).mp hcontains
    exact hmem.within_of_token htoken hstart hstop hfrom hto
  obtain ⟨last, hcall, hlater⟩ := hlast.call
  obtain ⟨turn, hlatest⟩ := hfollows.get?_iff.mp hlocation
  have hturn : last ≤ turn := hlatest.last last span hcall
  have hrange : span.range = token.range := by
    rw [hspan]
    rfl
  refine hfollows.resolve_eq_some_iff.mpr ⟨turn, span, hlatest, ?_, ?_⟩
  · refine ((hcut _ (hfollows.mem_of_latest hlatest)).contains_iff hn).mpr ?_
    show span.range.start ≤ n ∧ n ≤ span.range.stop
    rw [hrange]
    exact ⟨Nat.le_of_lt hstart, Nat.le_of_lt hstop⟩
  · intro turn' path' span' hlatest' hcontains
    have hwithin := hreaches hlatest' hcontains
    rw [← hrange] at hwithin
    simp only [Range.Within] at hwithin
    by_cases hsame : span'.range.start = span.range.start
    · have hle : turn' ≤ turn := Nat.le_trans (hlater _ _ _ hlatest'.call hsame) hturn
      simp only [Span.length, Range.length]
      omega
    · -- What begins in front of the word and has all of it is longer.
      left
      have hpos : span.range.start < span.range.stop := by
        rw [hrange]
        exact Nat.lt_trans hstart hstop
      simp only [Span.length, Range.length]
      omega

end

/-! ### Nothing behind the number of an event begins with its word -/

/-- The event that an entry of a list has at some numbers: a single event is the entry itself,
and those of a group are counted. -/
inductive Tree.EventEntry.Numbers : Tree.EventEntry → List Nat → Tree → Prop
  | single {node} : Numbers (.single node) [] node
  | alternative {node alternatives j event} (h : alternatives[j]? = some event) :
      Numbers (.group node alternatives) [j] event

theorem Tree.EventEntry.Numbers.leaves_subset {entry : Tree.EventEntry} {place : List Nat}
    {event : Tree} (h : entry.Numbers place event)
    (hparts : entry.alternatives ⊆ entry.node.children) : event.leaves ⊆ entry.node.leaves := by
  cases h with
  | single => exact List.Subset.refl _
  | alternative hevent => exact Tree.leaves_subset (hparts (List.mem_of_getElem? hevent))

theorem Tree.EventEntry.Numbers.mem_events {entry : Tree.EventEntry} {place : List Nat}
    {event : Tree} (h : entry.Numbers place event) : event ∈ entry.events := by
  cases h with
  | single => exact List.mem_singleton_self _
  | alternative hevent => exact List.mem_of_getElem? hevent

theorem Tree.EventEntry.Numbers.mem_places {entries : List Tree.EventEntry} {i : Nat}
    {entry : Tree.EventEntry} (hentry : entries[i]? = some entry) {place : List Nat} {event : Tree}
    (h : entry.Numbers place event) : (i :: place, event) ∈ Build.eventPlaces entries := by
  cases h with
  | single => exact mem_eventPlaces.mpr ⟨i, _, hentry, .inl ⟨rfl, rfl⟩⟩
  | alternative hevent => exact mem_eventPlaces.mpr ⟨i, _, hentry, .inr ⟨_, rfl, hevent⟩⟩

theorem leaves_event {t list event : Tree} (hlist : t.child? .withEvents = some list)
    {entry : Tree.EventEntry} (hentry : entry ∈ list.eventEntries) {place : List Nat}
    (hnumbers : entry.Numbers place event) : event.leaves ⊆ t.leaves := by
  obtain ⟨hnode, hparts⟩ := entry_part hentry
  exact List.Subset.trans (hnumbers.leaves_subset hparts.subset)
    (List.Subset.trans (Tree.leaves_subset hnode) (Tree.leaves_subset (Tree.child?_spec hlist).1))

theorem pairwise_zipIdx {α : Type} {R : α → α → Prop} {as : List α} (h : as.Pairwise R) :
    as.zipIdx.Pairwise fun a b => R a.1 b.1 := by
  rw [← List.pairwise_map, List.zipIdx_map_fst]
  exact h

/-- A service or an aggregate stands in nothing but the whole text. -/
theorem eq_of_top {t u : Tree} {kind : NodeKind} (hkind : t.kind? = some kind)
    (htop : kind ∈ [NodeKind.service, .aggregate]) (hpart : t.Part u) : ∀ {within : NodeKind},
      Shaped within u → u.kind? ≠ some .sourceFile → t = u := by
  induction hpart with
  | whole => exact fun _ _ => rfl
  | @inside k children v hmem _ ih =>
      intro within hshaped hroot
      cases hshaped with
      | node hholds _ _ hparts =>
      obtain rfl := ih (hparts v hmem) fun hv =>
        ne_sourceFile (hholds _ (List.mem_filterMap.mpr ⟨v, hmem, hv⟩)) rfl
      have hheld := NodeKind.holds_subset (hholds _ (List.mem_filterMap.mpr ⟨_, hmem, hkind⟩))
      have hnone : k ≠ .sourceFile → kind ∉ NodeKind.holds .sourceFile k := by
        rcases List.mem_pair.mp htop with rfl | rfl <;> cases k <;> decide
      exact absurd hheld (hnone fun h => hroot (congrArg some h))

/-- Methods and commands stand in services and aggregates. -/
theorem home_of_operation {t : Tree} {kind : NodeKind} {m : MemberSlot}
    (hm : m ∈ memberSlots t kind) (hkind : m.kind ∈ operationKinds) :
    kind ∈ [NodeKind.service, .aggregate] ∧ ownBody t kind = t.children := by
  rcases operation_cases hm hkind with ⟨rfl, -⟩ | ⟨rfl, -⟩
  · exact ⟨by decide, rfl⟩
  · exact ⟨by decide, rfl⟩

/-- How they begin does not depend on what they stand in. -/
theorem opening_top {input : BuildInput} {kind : NodeKind}
    (h : kind ∈ [NodeKind.service, .aggregate]) (home home' : Option Home)
    (parent parent' : Option Tree) (t : Tree) :
    opening input home parent kind t = opening input home' parent' kind t := by
  rcases List.mem_pair.mp h with rfl | rfl <;> rfl

section
variable {naming : Naming} {source : String} {t list event : Tree} {entry : Tree.EventEntry}
  {place : List Nat} {span : Span} {token : Token}

/-- What stands at the top keeps to the table, and is of a kind that a text holds. -/
theorem shaped_top (ht : t ∈ (parse source).tree.children) : Shaped .sourceFile t ∧
    ∀ kind, t.kind? = some kind → kind ∈ NodeKind.holds .sourceFile .sourceFile := by
  obtain ⟨children, htree⟩ := parse_tree source
  have hshaped := shaped_parse source
  rw [htree] at ht hshaped
  cases hshaped with
  | node hholds _ _ hparts =>
  exact ⟨hparts t ht, fun kind hkind => hholds kind (List.mem_filterMap.mpr ⟨t, ht, hkind⟩)⟩

theorem Piece.mem_top {kind : NodeKind} (h : Piece source t) (hkind : t.kind? = some kind)
    (htop : kind ∈ [NodeKind.service, .aggregate]) : t ∈ (parse source).tree.children := by
  obtain ⟨children, htree⟩ := parse_tree source
  rw [Piece, htree] at h
  cases h with
  | whole =>
      obtain rfl := Option.some.inj hkind
      exact absurd htop (by decide)
  | @inside _ _ u hmem hpart =>
      have hu : u ∈ (parse source).tree.children := htree ▸ hmem
      obtain ⟨hshaped, hkinds⟩ := shaped_top hu
      have hroot : u.kind? ≠ some .sourceFile := fun h => ne_sourceFile (hkinds _ h) rfl
      rw [eq_of_top hkind htop hpart hshaped hroot]
      exact hu

/-- At the top there are no blocks of fields. -/
theorem kind?_of_top (ht : t ∈ (parse source).tree.children) : t.kind? ≠ some .nestedField :=
  fun hkind => absurd ((shaped_top ht).2 _ hkind) (by decide)

/-- What is recorded of a text is what is recorded of its constructs. -/
theorem allRecords_eq (naming : Naming) (source : String) :
    allRecords naming source = (parse source).tree.children.flatMap fun u =>
      recordsOf (changes ⟨naming, source.toList⟩ none (some (parse source).tree) u) := by
  obtain ⟨children, htree⟩ := parse_tree source
  rw [allRecords, htree, changes]
  show recordsOf ([] ++ changesOfAll _ none _ children) = _
  rw [List.nil_append, changesOfAll_eq, recordsOf_flatMap]
  rfl

/-- The entries of a list are parts of their own. -/
theorem Piece.apart_entries (h : Piece source list) :
    list.eventEntries.Pairwise fun a b => a.node.Apart b.node := by
  rw [Tree.eventEntries, List.pairwise_filterMap]
  refine h.apart_children.imp fun {t u} hapart a ha b hb => ?_
  split at ha <;> split at hb <;> cases ha <;> cases hb <;> exact hapart

/-- The words of a list stand behind the token with which a method or a command begins. -/
theorem behind_keyword (h : Piece source t) (hlist : t.child? .withEvents = some list)
    (hentry : entry ∈ list.eventEntries) (htoken : token ∈ entry.node.leaves) :
    ∃ first rest, t.leaves = first :: rest ∧ token ∈ rest := by
  obtain ⟨hmem, hkind⟩ := Tree.child?_spec hlist
  obtain ⟨parts, rfl⟩ := Tree.exists_node hkind
  obtain ⟨keyword, entries, rfl⟩ := keyword_withEvents (h.child hmem)
  have hnode : entry.node ∈ entries := by
    refine (List.mem_cons.mp (entry_part hentry).1).resolve_left fun heq => ?_
    obtain ⟨child, -, hchild⟩ := List.mem_filterMap.mp hentry
    split at hchild <;> cases hchild <;> cases heq
  have hbehind : token ∈ Tree.leavesOfAll entries := by
    rw [Tree.leavesOfAll_eq]
    exact List.mem_flatMap.mpr ⟨_, hnode, htoken⟩
  cases t with
  | leaf => exact nomatch hmem
  | node kind children =>
      obtain ⟨front, back, rfl⟩ := List.append_of_mem hmem
      have hleaves : (Tree.node kind
          (front ++ .node .withEvents (.leaf keyword :: entries) :: back)).leaves =
            Tree.leavesOfAll front ++
              keyword :: (Tree.leavesOfAll entries ++ Tree.leavesOfAll back) := by
        simp [Tree.leaves, Tree.leavesOfAll_eq]
      rw [hleaves]
      have hrest := List.mem_append_left (Tree.leavesOfAll back) hbehind
      cases Tree.leavesOfAll front with
      | nil => exact ⟨_, _, rfl, hrest⟩
      | cons first more =>
          exact ⟨_, _, rfl, List.mem_append_right _ (List.mem_cons_of_mem _ hrest)⟩

/-- What a construct at the top records last with one of its tokens is the last of the whole
text: the constructs behind it have other tokens. -/
theorem lastAt_top {path : String} (ht : t ∈ (parse source).tree.children)
    (htoken : token ∈ t.leaves) (hstart : span.range.start = token.start)
    (hlast : (recordsOf (changes ⟨naming, source.toList⟩ none (some (parse source).tree)
      t)).LastAt path span) : (allRecords naming source).LastAt path span := by
  have hwhole : Piece source (parse source).tree := .whole
  rw [allRecords_eq]
  refine .flatMap id hwhole.apart_children ht hlast htoken hstart fun u hu => ?_
  refine begins_changes u (List.Subset.refl _) fun hnested => ?_
  exact absurd (beq_iff_eq.mp hnested) (kind?_of_top hu)

/-- What a method or a command records last with one of its tokens is the last of all methods or
commands of its construct. -/
theorem lastAt_members {c : Collection} {name path : String} {s : Site} {m : MemberSlot}
    (h : SettledMember source c name s m t) (hkind : m.kind ∈ operationKinds) {home : Option Home}
    (htoken : token ∈ t.leaves) (hstart : span.range.start = token.start)
    (hlast : (recordsOf (changes ⟨naming, source.toList⟩ home none t)).LastAt path span) :
    Records.LastAt ((members s.node s.kind m).flatMap fun u =>
      recordsOf (changes ⟨naming, source.toList⟩ home none u)) path span := by
  obtain ⟨-, hbody⟩ := home_of_operation h.slot hkind
  have hsiblings : (members s.node s.kind m).Pairwise Tree.Apart := by
    rw [members, hbody]
    exact h.piece.apart_children.filter _
  refine .flatMap id hsiblings h.mem hlast htoken hstart fun u hu => ?_
  refine begins_changes u (List.Subset.refl _) fun hnested => ?_
  have hsame : m.kind = .nestedField := Option.some.inj
    ((beq_iff_eq.mp (List.mem_filter.mp hu).2).symm.trans (beq_iff_eq.mp hnested))
  exact absurd (hsame ▸ hkind) (by decide)

/-- **What a method or a command records last with one of its tokens is the last that begins
there at all**: all that is recorded behind comes from other methods and from constructs further
on. -/
theorem lastAt_member {c : Collection} {name path : String} {s : Site} {m : MemberSlot}
    (h : SettledMember source c name s m t) (hkind : m.kind ∈ operationKinds)
    (htoken : token ∈ t.leaves) (hstart : span.range.start = token.start)
    (hlast : (recordsOf (changes ⟨naming, source.toList⟩ (some ⟨c.key ++ "." ++ name, c⟩) none
      t)).LastAt path span) : (allRecords naming source).LastAt path span := by
  obtain ⟨htop, hbody⟩ := home_of_operation h.slot hkind
  obtain ⟨-, parts, home, o, -, hstands, -⟩ := keptIn_model naming h.located h.kept
  obtain ⟨within, hshaped⟩ := shaped_kept h.kept
  have hinside := recordsOf_members ⟨naming, source.toList⟩ ⟨c.key ++ "." ++ name, c⟩
    (hstands.node ▸ hshaped) (hstands.node ▸ h.slot) (memberKinds_of_operation hkind).1
  rw [← hstands.node] at hinside
  have hopening : opening ⟨naming, source.toList⟩ none (some (parse source).tree) s.kind
      (.node s.kind parts) = some o := by
    rw [← hstands.node, opening_top htop none home _ s.parent]
    exact hstands.opening
  have hnode : (recordsOf (changes ⟨naming, source.toList⟩ none (some (parse source).tree)
      s.node)).LastAt path span := by
    rw [hstands.node, recordsOf_opening hopening, hstands.path, hstands.collection,
      ← hstands.node, hinside]
    exact (lastAt_members h hkind htoken hstart hlast).behind _
  have hmem : t ∈ s.node.children := by
    have hmem := h.mem
    rw [members, hbody] at hmem
    exact (List.mem_filter.mp hmem).1
  have hkindNode : s.node.kind? = some s.kind := by
    rw [hstands.node]
    rfl
  exact lastAt_top (h.piece.mem_top hkindNode htop) (Tree.leaves_subset hmem htoken) hstart hnode

variable (htoken : token ∈ event.leaves) (hstart : span.range.start = token.start)
  (hspan : BuildInput.locate ⟨naming, source.toList⟩ (some event) = some span)
include htoken hstart hspan

theorem lastAt_entry (h : Piece source list) (hentry : entry ∈ list.eventEntries)
    (hnumbers : entry.Numbers place event) (base : String) (i : Nat) :
    (Build.eventRecords ⟨naming, source.toList⟩ base i entry).LastAt
      (Path.numbered base (i :: place)) span := by
  obtain ⟨hnode, hparts⟩ := entry_part hentry
  cases hnumbers with
  | single =>
      rw [Build.eventRecords, hspan]
      exact ⟨[_], [], rfl, List.forall_mem_nil _⟩
  | alternative hevent =>
      have hapart := (h.child hnode).apart_children.sublist hparts
      have hindex := List.mk_mem_zipIdx_iff_getElem?.mpr hevent
      refine .behind [_] (.flatMap Prod.fst (pairwise_zipIdx hapart) hindex ?_ htoken hstart ?_)
      · simp only [hspan]
        exact ⟨[_], [], rfl, List.forall_mem_nil _⟩
      · intro b _ r hr
        rcases List.mem_pair.mp hr with rfl | rfl <;> exact begins_self (List.Subset.refl _)

theorem lastAt_withEvents (h : Piece source t) (hlist : t.child? .withEvents = some list) {i : Nat}
    (hentry : list.eventEntries[i]? = some entry) (hnumbers : entry.Numbers place event)
    (path : String) : (Build.withEventsRecords ⟨naming, source.toList⟩ path t).LastAt
      (Path.numbered (path ++ ".withEvents") (i :: place)) span := by
  have hpiece := h.child? _ list hlist
  have hmem := List.mem_of_getElem? hentry
  have hindex := List.mk_mem_zipIdx_iff_getElem?.mpr hentry
  have hleaves := hnumbers.leaves_subset (entry_part hmem).2.subset
  rw [Build.withEventsRecords, hlist]
  refine .behind [_] (.flatMap (fun p => p.1.node) (pairwise_zipIdx hpiece.apart_entries) hindex
    (lastAt_entry htoken hstart hspan hpiece hmem hnumbers _ i) (hleaves htoken) hstart ?_)
  rintro ⟨other, k⟩ hother r hr
  obtain ⟨-, hparts⟩ := entry_part (List.fst_mem_of_mem_zipIdx hother)
  exact begins_event (List.Subset.refl _) hparts.subset r hr

/-- Neither the method or command itself begins with an event, nor its name or parameter. -/
theorem lastAt_operation (h : Piece source t) (hlist : t.child? .withEvents = some list) {i : Nat}
    (hentry : list.eventEntries[i]? = some entry) (hnumbers : entry.Numbers place event)
    (path : String) : (Build.operationRecords ⟨naming, source.toList⟩ path t).LastAt
      (Path.numbered (path ++ ".withEvents") (i :: place)) span := by
  have hentryMem := List.mem_of_getElem? hentry
  obtain ⟨hnode, hparts⟩ := entry_part hentryMem
  have hinEntry := hnumbers.leaves_subset hparts.subset htoken
  have hbeside : ∀ other ∈ t.leavesBeside .withEvents, span.range.start ≠ other.start := by
    rw [hstart]
    exact h.apart_beside hlist token (Tree.leaves_subset hnode hinEntry)
  refine (lastAt_withEvents htoken hstart hspan h hlist hentry hnumbers path).before ?_
  simp only [List.forall_mem_cons]
  refine ⟨?_, .of_begins (begins_locate fun u hu => Tree.child?_beside (by decide) hu) hbeside,
    .of_begins (begins_locate fun u hu => ?_) hbeside, List.forall_mem_nil _⟩
  · obtain ⟨first, rest, hleaves, hrest⟩ := behind_keyword h hlist hentryMem hinEntry
    have hne := h.starts_ne
    rw [hleaves, List.pairwise_cons] at hne
    refine .of_begins (begins_first hleaves) fun other hmem => ?_
    rw [List.mem_singleton.mp hmem, hstart]
    exact (hne.1 token hrest).symm
  · obtain ⟨params, hparams, hu⟩ := Option.bind_eq_some_iff.mp hu
    exact leaves_child? (Tree.child?_beside (by decide) hparams) _ u hu

/-- **Behind the number of an event nothing is recorded that begins with its word.** -/
theorem lastAt_event {c : Collection} {name : String} {s : Site} {m : MemberSlot}
    (h : SettledMember source c name s m t) (hkind : m.kind ∈ operationKinds)
    (hlist : t.child? .withEvents = some list) {i : Nat}
    (hentry : list.eventEntries[i]? = some entry) (hnumbers : entry.Numbers place event) :
    (allRecords naming source).LastAt (Path.numbered
      (".".intercalate [c.key, name, m.slot, t.nameOrEmpty] ++ ".withEvents") (i :: place)) span := by
  obtain ⟨hmember, -⟩ := memberKinds_of_operation hkind
  obtain ⟨hnode, -, hpiece, within, hshaped⟩ := dotless_member (kept?_mem h.kept) h.mem
  obtain ⟨o, children, ho, -, rfl, hown, -⟩ :=
    under_member naming h.located h.kept h.single h.slot hmember h.mem
  obtain ⟨front, hrecords⟩ := records_operation hkind ho
  have hword := leaves_event hlist (List.mem_of_getElem? hentry) hnumbers htoken
  refine lastAt_member h hkind hword hstart ?_
  rw [hown, recordsOf_operation hshaped hkind, List.append_nil, hrecords,
    ← path_member h.slot hmember ho]
  exact (lastAt_operation htoken hstart hspan hpiece hlist hentry hnumbers _).behind front

end

/-! ### Names and their places -/

/-- At a path stands a name: just that is written in its span, and positions strictly inside
lead to the path. -/
def Model.Pins (m : Model) (source path name : String) : Prop :=
  ∃ span, m.location? path = some span ∧
    Source.textIn source.toList span.range = name.toList ∧
    ∀ p : Position, span.start.Before p → p.Before span.stop → m.resolve p = some path

/-- The value in a list is the name of an event, which stands where its numbers lead, and that is
another path than the one with its name. -/
def Model.PinsEvent (m : Model) (source base : String) (place : List Nat) (v : Value) : Prop :=
  ∃ name, v = .string name ∧ m.Pins source (Path.numbered base place) name ∧
    Path.numbered base place ≠ base ++ "." ++ name

/-- Every event of a list stands where its numbers lead, alone or in a group. -/
def Model.PinsEvents (m : Model) (source base : String) (items : List Value) : Prop :=
  ∀ i item, items[i]? = some item → m.PinsEvent source base [i] item ∨
    ∃ alternatives, item = .list alternatives ∧ ∀ j alternative,
      alternatives[j]? = some alternative → m.PinsEvent source base [i, j] alternative

section
variable {naming : Naming} {source : String}

/-- **The last path that is recorded for a word is where the word stands.** -/
theorem pins_word {path : String} {word : Token} (hword : word ∈ scan source)
    (hident : word.kind = .ident)
    (hlast : (allRecords naming source).LastAt path (Source.span source.toList word.range))
    (hlocation : (Direct.model naming source).location? path =
      some (Source.span source.toList word.range)) :
    (Direct.model naming source).Pins source path word.text := by
  obtain ⟨before, after, hsplit⟩ := List.append_of_mem hword
  have htext : source.toList = charsOf before ++ word.text.toList ++ charsOf after := by
    rw [← scan_chars, hsplit, charsOf_append, charsOf_cons, List.append_assoc]
  have hstart : word.start = Source.byteLength (charsOf before) := by
    have h := scan_contiguous source
    rw [hsplit] at h
    rw [contiguous_split h, Nat.zero_add]
  have hstop : word.stop = Source.byteLength (charsOf before ++ word.text.toList) := by
    rw [Token.stop, hstart, Source.byteLength_append, Source.byteLength_toList]
  have hfront : Source.position source.toList word.start = Source.counted (charsOf before) := by
    rw [hstart, htext, List.append_assoc, Source.position_counted]
  have hback : Source.position source.toList word.stop =
      Source.counted (charsOf before ++ word.text.toList) := by
    rw [hstop, htext, Source.position_counted]
  refine ⟨_, hlocation, ?_, fun p hp hp' => ?_⟩
  · show Source.textIn source.toList ⟨word.start, word.stop⟩ = _
    rw [hstart, hstop]
    exact Source.textIn_eq htext
  · have hline : '\n' ∉ word.text.toList :=
      fun h => absurd (scan_ident_chars hword hident '\n' h) (by decide)
    replace hp : (Source.position source.toList word.start).Before p := hp
    replace hp' : p.Before (Source.position source.toList word.stop) := hp'
    rw [hfront] at hp
    rw [hback] at hp'
    obtain ⟨n, hn, hlt, hlt', rfl⟩ := Source.exists_boundary (charsOf after) hline hp hp'
    rw [← htext] at hn ⊢
    exact resolve_of_lastAt hlast hlocation hword rfl hn (hstart ▸ hlt) (hstop ▸ hlt')

/-- **An event of a method or a command stands where its numbers lead**, and not its name. -/
theorem pins_event {c : Collection} {name : String} {s : Site} {m : MemberSlot}
    {t list event : Tree} (h : SettledMember source c name s m t) (hkind : m.kind ∈ operationKinds)
    (hlist : t.child? .withEvents = some list) {i : Nat} {entry : Tree.EventEntry}
    (hentry : list.eventEntries[i]? = some entry) {place : List Nat}
    (hnumbers : entry.Numbers place event) : (Direct.model naming source).PinsEvent source
      (".".intercalate [c.key, name, m.slot, t.nameOrEmpty] ++ ".withEvents") (i :: place)
      (Build.eventName event) := by
  obtain ⟨-, -, hpiece, -⟩ := dotless_member (kept?_mem h.kept) h.mem
  obtain ⟨hevent, kind, word, rfl, hident⟩ := event_word (hpiece.child? _ list hlist)
    (Tree.child?_spec hlist).2 (List.mem_of_getElem? hentry) hnumbers.mem_events
  have hmem : word ∈ (Tree.node kind [.leaf word]).leaves := List.mem_singleton_self _
  have hword := hevent.mem_leaves hmem
  have hspan : BuildInput.locate ⟨naming, source.toList⟩ (some (.node kind [.leaf word])) =
      some (Source.span source.toList word.range) := rfl
  refine ⟨word.text, ?_, ?_, (isEventName_token hword hident).path_ne (by simp) i place⟩
  · rw [Build.eventName, Tree.word?_word hident, Option.getD_some]
  · exact pins_word (leaves_parse source ▸ hword) hident
      (lastAt_event hmem rfl hspan h hkind hlist hentry hnumbers)
      (location?_event h hkind hlist (hnumbers.mem_places hentry) hspan)

/-- The events of a method or a command are a list, and all of them stand where their numbers
lead. -/
theorem pins_operation {c : Collection} {name : String} {s : Site} {m : MemberSlot} {t : Tree}
    (h : SettledMember source c name s m t) (hkind : m.kind ∈ operationKinds) :
    ∃ items, (m.entry t).2.get? "withEvents" = some (.list items) ∧
      (Direct.model naming source).PinsEvents source
        (".".intercalate [c.key, name, m.slot, t.nameOrEmpty] ++ ".withEvents") items := by
  refine ⟨_, (get?_operation h.slot hkind).2, fun i item hitem => ?_⟩
  cases hlist : t.child? .withEvents with
  | none =>
      rw [hlist] at hitem
      exact nomatch hitem
  | some list =>
      rw [hlist, Option.map_some, Option.getD_some, List.getElem?_map,
        Option.map_eq_some_iff] at hitem
      obtain ⟨entry, hentry, rfl⟩ := hitem
      cases entry with
      | single node => exact .inl (pins_event h hkind hlist hentry .single)
      | group node alternatives =>
          refine .inr ⟨_, rfl, fun j alternative halternative => ?_⟩
          rw [List.getElem?_map, Option.map_eq_some_iff] at halternative
          obtain ⟨event, hevent, rfl⟩ := halternative
          exact pins_event h hkind hlist hentry (.alternative hevent)

/-- So do the events of all methods or commands of a construct. -/
theorem pins_operations {c : Collection} {name : String} {s : Site} (h : Settled source c name s)
    {m : MemberSlot} (hm : m ∈ memberSlots s.node s.kind) (hkind : m.kind ∈ operationKinds) :
    ∃ operations, (s.value ⟨naming, source.toList⟩).get? m.slot = some (.map operations) ∧
      ∀ f ∈ operations, ∃ items, f.2.get? "withEvents" = some (.list items) ∧
        (Direct.model naming source).PinsEvents source
          (".".intercalate [c.key, name, m.slot, f.1, "withEvents"]) items := by
  have hproper : s.Proper := proper_of_mem (shaped_parse source) (kept?_mem h.kept)
  obtain ⟨operations, hoperations, -⟩ := hproper.members ⟨naming, source.toList⟩ hm
  refine ⟨operations, hoperations, fun f hf => ?_⟩
  obtain ⟨t, hmember, rfl, hname⟩ :=
    member_of_entry h hm ((Value.entriesAt_eq hoperations).symm ▸ hf)
  have hbase := Path.intercalate_concat
    (List.cons_ne_nil c.key [name, m.slot, t.nameOrEmpty]) "withEvents"
  obtain ⟨items, hitems, hpins⟩ := pins_operation hmember hkind
  refine ⟨items, hitems, ?_⟩
  rw [← hname]
  exact hbase ▸ hpins

end

/-- Nobody writes events for a method that nobody writes. -/
theorem get?_crud {n : Naming} {service : String} {entities : List String} {f : String × Value}
    (hf : f ∈ Crud.methods n service entities) : f.2.get? "withEvents" = none := by
  obtain ⟨entity, -, hmem⟩ := List.mem_flatMap.mp (Dict.mem_ofList hf)
  simp only [Crud.methodsOf, List.mem_cons, List.not_mem_nil, or_false] at hmem
  rcases hmem with rfl | rfl | rfl | rfl | rfl <;> rfl

/-- **Every event is what its number leads to.**  Each event of a method or a command, alone or in
a group, has a location under its numbers, just its name is written there, and positions strictly
inside lead to its numbers and never to its name, whatever else has that name.  The methods
of a service without a body have no events. -/
theorem buildModel_events (naming : Naming) (source : String) :
    ∃ m, buildModel naming source = .ok m ∧
      ∀ home ∈ [(Collection.services, "methods"), (.aggregates, "commands")],
        ∀ e ∈ m.document.collection home.1, ∃ operations,
          e.2.get? home.2 = some (.map operations) ∧ ∀ f ∈ operations,
            (∃ items, f.2.get? "withEvents" = some (.list items) ∧ m.PinsEvents source
              (".".intercalate [home.1.key, e.1, home.2, f.1, "withEvents"]) items) ∨
            e.2.Marked "isLegacy" ∧ f.2.get? "withEvents" = none := by
  refine ⟨_, buildModel_eq naming source, fun home hhome e he => ?_⟩
  rcases List.mem_pair.mp hhome with rfl | rfl
  · obtain ⟨s, hs, hvalue⟩ := settled_of_mem (by decide) (by decide) he
    rw [← hvalue]
    rcases kept_service hs with ⟨-, hslot⟩ | hkind
    · obtain ⟨operations, hoperations, hpins⟩ :=
        pins_operations hs hslot (show NodeKind.serviceMethod ∈ operationKinds by decide)
      exact ⟨operations, hoperations, fun f hf => .inl (hpins f hf)⟩
    · obtain ⟨hlegacy, hmethods⟩ := value_legacy ⟨naming, source.toList⟩ hkind
      exact ⟨_, hmethods, fun f hf => .inr ⟨hlegacy, get?_crud hf⟩⟩
  · obtain ⟨s, hs, hvalue⟩ := settled_of_mem (by decide) (by decide) he
    rw [← hvalue]
    obtain ⟨operations, hoperations, hpins⟩ := pins_operations hs (kept_aggregate hs).2
      (show NodeKind.aggregateCommand ∈ operationKinds by decide)
    exact ⟨operations, hoperations, fun f hf => .inl (hpins f hf)⟩

/-- A command that is declared again and has one event three times: each time has its number. -/
theorem buildModel_events_repeated :
    let source := "aggregate A(B) \x7b c(X) withEvents Ev Old c(X) withEvents [Ev|Ev] Ev \x7d"
    (parse source).errors source = [] ∧ ∃ m, buildModel .english source = .ok m ∧
      m.Pins source "aggregates.A.commands.c.withEvents.0.1" "Ev" ∧
      m.Pins source "aggregates.A.commands.c.withEvents.1" "Ev" := by
  intro source
  obtain ⟨m, hm, hevents⟩ := buildModel_events .english source
  obtain rfl := Except.ok.inj (hm.symm.trans (buildModel_eq .english source))
  have hcommand : ∃ e ∈ (Direct.model .english source).document.collection .aggregates,
      e.1 = "A" ∧ ∃ f ∈ e.2.entriesAt "commands", f.1 = "c" ∧
        ((f.2.itemsAt "withEvents")[0]?.bind fun group =>
          (group.list?.bind (·[1]?)).bind Value.string?) = some "Ev" ∧
        (f.2.itemsAt "withEvents")[1]?.bind Value.string? = some "Ev" := by
    decide +kernel
  obtain ⟨e, he, hname, f, hf, hmethod, hfirst, hsecond⟩ := hcommand
  obtain ⟨operations, hoperations, hwritten⟩ := hevents (.aggregates, "commands") (by decide) e he
  rw [Value.entriesAt_eq hoperations] at hf
  refine ⟨by decide +kernel, _, hm, ?_⟩
  obtain ⟨items, hitems, hpins⟩ | ⟨-, hnone⟩ := hwritten f hf
  · rw [hname, hmethod] at hpins
    rw [Value.itemsAt_eq hitems] at hfirst hsecond
    obtain ⟨group, hgroup, hmember⟩ := Option.bind_eq_some_iff.mp hfirst
    obtain ⟨single, hsingle, htext⟩ := Option.bind_eq_some_iff.mp hsecond
    constructor
    · rcases hpins 0 group hgroup with ⟨_, rfl, -⟩ | ⟨alternatives, rfl, hall⟩
      · exact absurd hmember.symm (Option.some_ne_none _)
      · obtain ⟨v, hv, hev⟩ := Option.bind_eq_some_iff.mp hmember
        obtain ⟨_, rfl, hpin, -⟩ := hall 1 v hv
        obtain rfl := Option.some.inj hev
        exact hpin
    · rcases hpins 1 single hsingle with ⟨_, rfl, hpin, -⟩ | ⟨_, rfl, -⟩
      · obtain rfl := Option.some.inj htext
        exact hpin
      · exact absurd htext.symm (Option.some_ne_none _)
  · rw [Value.itemsAt, hnone] at hsecond
    exact absurd hsecond.symm (Option.some_ne_none _)

end DomainModel
