/-
Every recorded span is cut along a stretch of the tree.

A construct records the spans of itself, of its children and of some of theirs, and these
are parts of the tree.  Where it records a cover of two parts, they are children of one node
and the first of them is the child with which every run in that node begins: the type of a
field, which stands in front of all its blocks, and the first check that is kept of those on
what a relationship injects.

`Placed` lists what a construct can record, and `placed_locations` goes through the changes
of a tree and finds nothing else in the index, whichever paths were recorded again.  All of
it is cut along a stretch (`Placed.cut`), so the index is (`cut_locations`).
-/
import DomainModel.Proofs.Build.Names
import DomainModel.Proofs.Build.Stretch
import DomainModel.Proofs.Model.Locations

namespace DomainModel

open Direct
open DomainModel.Tree (opens leavesBefore)

/-- A span that is cut from a text along a stretch of its tree. -/
def Cut (source : String) (span : Span) : Prop :=
  ∃ r, Stretch (parse source).tree r ∧ r.start < r.stop ∧
    span = Source.span source.toList (r.map (offset (scan source)))

/-- A span that is recorded only if it is there. -/
def Marks (source : String) (span : Option Span) : Prop := ∀ s, span = some s → Cut source s

/-! ### Parts -/

section
variable {naming : Naming} {source : String}

/-- The tree of the text has `t` as a part. -/
abbrev Piece (source : String) (t : Tree) : Prop := t.Part (parse source).tree

theorem Piece.child {t u : Tree} (h : Piece source t) (hu : u ∈ t.children) : Piece source u :=
  (Tree.part_of_mem hu).trans h

theorem Piece.child? {t : Tree} (h : Piece source t) (kind : NodeKind) :
    ∀ u ∈ t.child? kind, Piece source u :=
  fun _ hu => h.child (Tree.child?_spec hu).1

theorem contiguous_parse (source : String) : Contiguous 0 (parse source).tree.leaves :=
  leaves_parse source ▸ scan_contiguous source

theorem marks_range {t : Tree} (h : Piece source t) :
    Marks source (t.range?.map (Source.span source.toList)) := by
  intro s hs
  obtain ⟨r, hrange, rfl⟩ := Option.map_eq_some_iff.mp hs
  obtain ⟨before, after, hsplit, hstretch⟩ := h.stretch
  obtain ⟨hne, rfl⟩ := range?_eq (contiguous_parse source) hsplit hrange
  have hpos : 0 < t.leaves.length := List.length_pos_iff.mpr hne
  refine ⟨_, hstretch _ .whole, ?_, ?_⟩
  · show before.length + 0 < before.length + t.leaves.length
    omega
  · rw [leaves_parse]
    rfl

/-! ### Runs -/

/-- A child lies behind the leaves that its node has in front of it. -/
theorem range?_child {kind : NodeKind} {children : List Tree} {ts before after : List Token}
    (hts : Contiguous 0 ts) (hsplit : ts = before ++ (Tree.node kind children).leaves ++ after)
    {n : Nat} {t : Tree} {r : Range} (ht : children[n]? = some t) (hrange : t.range? = some r) :
    leavesBefore children n < leavesBefore children (n + 1) ∧ r = Range.map (offset ts)
      ⟨before.length + leavesBefore children n, before.length + leavesBefore children (n + 1)⟩ := by
  have hchild : ts = (before ++ Tree.leavesOfAll (children.take n)) ++ t.leaves ++
      (Tree.leavesOfAll (children.drop (n + 1)) ++ after) := by
    rw [hsplit, Tree.leaves, Tree.leavesOfAll_split ht]
    simp only [List.append_assoc]
  obtain ⟨hne, rfl⟩ := range?_eq hts hchild hrange
  have hpos : 0 < t.leaves.length := List.length_pos_iff.mpr hne
  rw [Tree.leavesBefore_succ ht, List.length_append, ← leavesBefore, Nat.add_assoc]
  exact ⟨by omega, rfl⟩

/-- Of two children of one node the one in front begins first and ends first. -/
theorem range?_mono {kind : NodeKind} {children : List Tree} {ts before after : List Token}
    (hts : Contiguous 0 ts) (hsplit : ts = before ++ (Tree.node kind children).leaves ++ after)
    {m n : Nat} (hle : m ≤ n) {t u : Tree} {r s : Range} (ht : children[m]? = some t)
    (hu : children[n]? = some u) (hr : t.range? = some r) (hs : u.range? = some s) :
    r.start ≤ s.start ∧ r.stop ≤ s.stop := by
  obtain ⟨-, rfl⟩ := range?_child hts hsplit ht hr
  obtain ⟨-, rfl⟩ := range?_child hts hsplit hu hs
  have hstart := Tree.leavesBefore_mono children hle
  have hstop := Tree.leavesBefore_mono children (Nat.add_le_add_right hle 1)
  exact ⟨offset_mono _ (Nat.add_le_add_left hstart _), offset_mono _ (Nat.add_le_add_left hstop _)⟩

/-- The cover of two children of one node, of which the first begins the runs there. -/
theorem marks_run {kind : NodeKind} {children : List Tree} {first last : Tree} {n : Nat}
    (h : Piece source (.node kind children))
    (hfirst : children[children.findIdx (opens kind)]? = some first)
    (hlast : children[n]? = some last) (hle : children.findIdx (opens kind) ≤ n) :
    Marks source (Build.coverOf (first.range?.map (Source.span source.toList))
      (last.range?.map (Source.span source.toList))) := by
  intro s hs
  obtain ⟨before, after, hsplit, hstretch⟩ := h.stretch
  cases hfrom : first.range? with
  | none =>
      rw [hfrom] at hs
      exact nomatch hs
  | some r =>
      cases hto : last.range? with
      | none =>
          rw [hfrom, hto] at hs
          exact nomatch hs
      | some r' =>
          obtain ⟨hstart, hstop⟩ :=
            range?_mono (contiguous_parse source) hsplit hle hfirst hlast hfrom hto
          rw [hfrom, hto] at hs
          obtain ⟨hpos, rfl⟩ := range?_child (contiguous_parse source) hsplit hfirst hfrom
          obtain ⟨-, rfl⟩ := range?_child (contiguous_parse source) hsplit hlast hto
          obtain rfl := Option.some.inj hs
          have hbehind := Tree.leavesBefore_mono children (Nat.add_le_add_right hle 1)
          refine ⟨_, hstretch _ (.run (Nat.le_succ_of_le hle)), ?_, ?_⟩
          · exact Nat.add_lt_add_left (Nat.lt_of_lt_of_le hpos hbehind) before.length
          · rw [Source.cover_span, Range.cover, Nat.min_eq_left hstart, Nat.max_eq_right hstop,
              leaves_parse]
            rfl

theorem getElem?_findIdx {α : Type} {p : α → Bool} {as : List α} {a : α}
    (h : as.find? p = some a) : as[as.findIdx p]? = some a := by
  induction as with
  | nil => exact nomatch h
  | cons b as ih =>
      rw [List.find?_cons] at h
      rw [List.findIdx_cons]
      cases hb : p b with
      | true =>
          rw [hb] at h
          exact h
      | false =>
          rw [hb] at h
          exact ih h

theorem findIdx_le {α : Type} {p : α → Bool} {as : List α} {a : α} {n : Nat}
    (ha : as[n]? = some a) (hp : p a = true) : as.findIdx p ≤ n := by
  by_contra hlt
  have hfalse := List.not_of_lt_findIdx (Nat.lt_of_not_le hlt)
  obtain ⟨hn, rfl⟩ := List.getElem?_eq_some_iff.mp ha
  exact Bool.noConfusion (hfalse.symm.trans hp)

/-! ### What is recorded -/

/-- A node of the text other than the whole. -/
structure InnerNode (source : String) (t : Tree) : Prop where
  inside : t.Inside (parse source).tree
  isNode : t.kind?.isSome

/-- What constructs record: the span of a node, of a doc comment, or of a run from the child
that opens it to the end of a node behind. -/
inductive Placed (source : String) : Span → Prop
  | node {t r} (h : InnerNode source t) (hr : t.range? = some r) :
      Placed source (Source.span source.toList r)
  | comment {t token} (h : Piece source t) (hmem : .leaf token ∈ t.children)
      (hkind : token.kind = .javadoc) : Placed source (Source.span source.toList token.range)
  | run {kind children first last n r r'} (h : Piece source (.node kind children))
      (hfirst : children[children.findIdx (opens kind)]? = some first)
      (hlast : children[n]? = some last) (hle : children.findIdx (opens kind) ≤ n)
      (hnode : last.kind?.isSome) (hr : first.range? = some r) (hr' : last.range? = some r') :
      Placed source ((Source.span source.toList r).cover (Source.span source.toList r'))

/-- A span that is placed in the text, where there is one to record. -/
def Places (source : String) (span : Option Span) : Prop := ∀ s, span = some s → Placed source s

/-- **What is recorded is cut along a stretch.** -/
theorem Placed.cut {span : Span} (h : Placed source span) : Cut source span := by
  cases h with
  | node h hr => exact marks_range h.inside.part _ (congrArg (Option.map _) hr)
  | comment h hmem => exact marks_range (h.child hmem) _ rfl
  | run h hfirst hlast hle _ hr hr' =>
      refine marks_run h hfirst hlast hle _ ?_
      rw [hr, hr']
      rfl

theorem InnerNode.piece {t : Tree} (h : InnerNode source t) : Piece source t := h.inside.part

theorem InnerNode.of_child? {t : Tree} (h : Piece source t) (kind : NodeKind) :
    ∀ u ∈ t.child? kind, InnerNode source u := by
  intro u hu
  obtain ⟨hmem, hkind⟩ := Tree.child?_spec hu
  exact ⟨Tree.inside_of_mem h hmem, by rw [hkind]; rfl⟩

theorem InnerNode.of_childrenOf {t : Tree} (h : Piece source t) (kind : NodeKind) :
    ∀ u ∈ t.childrenOf kind, InnerNode source u := by
  intro u hu
  obtain ⟨hmem, hkind⟩ := List.mem_filter.mp hu
  exact ⟨Tree.inside_of_mem h hmem, by rw [beq_iff_eq.mp hkind]; rfl⟩

theorem places_locate {part : Option Tree} (h : ∀ t ∈ part, InnerNode source t) :
    Places source (BuildInput.locate ⟨naming, source.toList⟩ part) := by
  intro s hs
  obtain ⟨r, hr, rfl⟩ := Option.map_eq_some_iff.mp hs
  obtain ⟨t, ht, hrange⟩ := Option.bind_eq_some_iff.mp hr
  exact .node (h t ht) hrange

theorem places_self {t : Tree} (h : InnerNode source t) :
    Places source (BuildInput.locate ⟨naming, source.toList⟩ (some t)) :=
  places_locate fun _ hu => Option.some.inj hu ▸ h

theorem places_child {t : Tree} (h : Piece source t) (kind : NodeKind) :
    Places source (BuildInput.locate ⟨naming, source.toList⟩ (t.child? kind)) :=
  places_locate (.of_child? h kind)

theorem places_comment {t : Tree} (h : Piece source t) :
    Places source (BuildInput.locateToken ⟨naming, source.toList⟩ (t.childToken? .javadoc)) := by
  intro s hs
  obtain ⟨token, htoken, rfl⟩ := Option.map_eq_some_iff.mp hs
  obtain ⟨hmem, hkind⟩ := Tree.childToken?_spec htoken
  exact .comment h hmem hkind

theorem places_anyJavadoc {t : Tree} (h : Piece source t) :
    Places source (BuildInput.locateToken ⟨naming, source.toList⟩ t.anyJavadoc?) := by
  rw [Tree.anyJavadoc?]
  cases hfront : t.javadoc? with
  | some token =>
      have hplaces : Places source (BuildInput.locateToken ⟨naming, source.toList⟩ t.javadoc?) :=
        places_comment h
      rw [hfront] at hplaces
      exact hplaces
  | none =>
      cases hsuffix : t.child? .suffixJavadoc with
      | none =>
          rw [Tree.suffixJavadoc?, hsuffix]
          exact fun _ hs => nomatch hs
      | some suffix =>
          rw [Tree.suffixJavadoc?, hsuffix]
          exact places_comment (h.child? _ suffix hsuffix)

/-- The cover of two children of one node, of which the first begins the runs there. -/
theorem places_run {kind : NodeKind} {children : List Tree} {first last : Tree} {n : Nat}
    (h : Piece source (.node kind children))
    (hfirst : children[children.findIdx (opens kind)]? = some first)
    (hlast : children[n]? = some last) (hle : children.findIdx (opens kind) ≤ n)
    (hnode : last.kind?.isSome) :
    Places source (Build.coverOf (BuildInput.locate ⟨naming, source.toList⟩ (some first))
      (BuildInput.locate ⟨naming, source.toList⟩ (some last))) := by
  intro s hs
  simp only [BuildInput.locate, Option.bind_some] at hs
  cases hfrom : first.range? with
  | none =>
      rw [hfrom] at hs
      exact nomatch hs
  | some r =>
      cases hto : last.range? with
      | none =>
          rw [hfrom, hto] at hs
          exact nomatch hs
      | some r' =>
          rw [hfrom, hto] at hs
          obtain rfl := Option.some.inj hs
          exact .run h hfirst hlast hle hnode hfrom hto

/-- In a field, a block stands behind the type. -/
theorem type_before_block {children : List Tree} {type block : Tree}
    (htype : (Tree.node .field children).child? .fieldType = some type) (hmem : block ∈ children)
    (hblock : block.isNode .nestedField = true)
    (hturn : (kindsOf children).Pairwise fun a b => NodeKind.field.clashes a b = false) :
    ∃ n, children[n]? = some block ∧ children.findIdx (opens .field) ≤ n ∧
      children[children.findIdx (opens .field)]? = some type := by
  have hfirst : children[children.findIdx (opens .field)]? = some type := getElem?_findIdx htype
  obtain ⟨n, hn⟩ := List.getElem?_of_mem hmem
  refine ⟨n, hn, Nat.le_of_not_lt fun hlt => ?_, hfirst⟩
  -- A block in front of the type would be against the order in a field.
  have hkind := (Tree.child?_spec htype).2
  rw [kindsOf, List.pairwise_filterMap, List.pairwise_iff_getElem] at hturn
  obtain ⟨hnLt, hnEq⟩ := List.getElem?_eq_some_iff.mp hn
  obtain ⟨hpLt, hpEq⟩ := List.getElem?_eq_some_iff.mp hfirst
  have hclash := hturn _ _ hnLt hpLt hlt .nestedField
    (hnEq ▸ beq_iff_eq.mp hblock) .fieldType (hpEq ▸ hkind)
  exact absurd hclash (by decide)

/-- In a field, the type and any block behind it are a run. -/
theorem places_block {children : List Tree} {block : Tree}
    (h : Piece source (.node .field children)) (hmem : block ∈ children)
    (hblock : block.isNode .nestedField = true)
    (hturn : (kindsOf children).Pairwise fun a b => NodeKind.field.clashes a b = false) :
    Places source (Build.coverOf
      (BuildInput.locate ⟨naming, source.toList⟩ ((Tree.node .field children).child? .fieldType))
      (BuildInput.locate ⟨naming, source.toList⟩ (some block))) := by
  cases htype : (Tree.node .field children).child? .fieldType with
  | none => exact fun _ hs => nomatch hs
  | some type =>
      obtain ⟨n, hn, hle, hfirst⟩ := type_before_block htype hmem hblock hturn
      exact places_run h hfirst hn hle (by rw [beq_iff_eq.mp hblock]; rfl)

/-- The span of a check that is kept of what a relationship injects. -/
def keptSpan (input : BuildInput) (t : Tree) : Option Span :=
  if t.isNode .validation && (Build.endValidation t).isSome then input.locate (some t) else none

theorem isNode_of_opens {kind : NodeKind} {t : Tree} (h : opens kind t = true) :
    t.kind?.isSome := by
  cases t with
  | leaf => cases kind <;> exact nomatch h
  | node => rfl

theorem opens_iff_keptSpan (input : BuildInput) :
    opens .relationshipField = fun t => (keptSpan input t).isSome := by
  funext t
  rw [opens, keptSpan]
  cases t.isNode .validation && (Build.endValidation t).isSome with
  | false => rfl
  | true => cases hrange : t.range? <;> simp [BuildInput.locate, hrange]

/-- The spans of the checks that are kept, in order. -/
theorem keptSpans_eq (input : BuildInput) (children : List Tree) :
    (((Tree.node .relationshipField children).validations.filterMap fun t =>
        (Build.endValidation t).map fun (name, v) => (t, name, v)).filterMap
      fun (t, _) => input.locate (some t)) = children.filterMap (keptSpan input) := by
  rw [List.filterMap_filterMap, Tree.validations, Tree.childrenOf, List.filterMap_filter]
  refine List.filterMap_congr fun t _ => ?_
  rw [keptSpan]
  cases t.isNode .validation <;> cases Build.endValidation t <;> rfl

theorem head?_filterMap_findIdx {α β : Type} {f : α → Option β} {as : List α} {b : β}
    (h : (as.filterMap f).head? = some b) :
    ∃ a, as[as.findIdx fun a => (f a).isSome]? = some a ∧ f a = some b := by
  rw [List.head?_filterMap, List.findSome?_eq_some_iff] at h
  obtain ⟨front, a, back, rfl, ha, hfront⟩ := h
  refine ⟨a, getElem?_findIdx ?_, ha⟩
  rw [List.find?_append, List.find?_eq_none.mpr fun x hx => by simp [hfront x hx],
    List.find?_cons, ha]
  rfl

/-- In what a relationship injects, the checks from the first kept to the last are a run. -/
theorem places_kept {children : List Tree} (h : Piece source (.node .relationshipField children)) :
    Places source (Build.coverOf
      (children.filterMap (keptSpan ⟨naming, source.toList⟩)).head?
      (children.filterMap (keptSpan ⟨naming, source.toList⟩)).getLast?) := by
  have hspan : ∀ {t s}, keptSpan ⟨naming, source.toList⟩ t = some s →
      BuildInput.locate ⟨naming, source.toList⟩ (some t) = some s := by
    intro t s hs
    rw [keptSpan] at hs
    split at hs
    · exact hs
    · exact nomatch hs
  intro s hs
  cases hhead : (children.filterMap (keptSpan ⟨naming, source.toList⟩)).head? with
  | none =>
      rw [hhead] at hs
      exact nomatch hs
  | some first =>
      cases hlast : (children.filterMap (keptSpan ⟨naming, source.toList⟩)).getLast? with
      | none =>
          rw [hhead, hlast] at hs
          exact nomatch hs
      | some last =>
          obtain ⟨t, ht, hfirst⟩ := head?_filterMap_findIdx hhead
          obtain ⟨u, hu, hlast'⟩ := List.mem_filterMap.mp (List.mem_of_getLast? hlast)
          obtain ⟨n, hn⟩ := List.getElem?_of_mem hu
          rw [← opens_iff_keptSpan] at ht
          have hopens : opens .relationshipField u = true := by
            rw [opens_iff_keptSpan ⟨naming, source.toList⟩]
            exact Option.isSome_of_eq_some hlast'
          have hrun : Places source (Build.coverOf
              (BuildInput.locate ⟨naming, source.toList⟩ (some t))
              (BuildInput.locate ⟨naming, source.toList⟩ (some u))) :=
            places_run h ht hn (findIdx_le hn hopens) (isNode_of_opens hopens)
          rw [hspan hfirst, hspan hlast', ← hhead, ← hlast] at hrun
          exact hrun s hs

/-! ### Constructs -/

theorem places_validations {path : String} {ts : List Tree} (h : ∀ t ∈ ts, InnerNode source t) :
    ∀ r ∈ Build.validationRecords ⟨naming, source.toList⟩ path ts, Places source r.2 := by
  intro r hr
  obtain ⟨t, ht, hr⟩ := List.mem_filterMap.mp hr
  obtain ⟨name, -, rfl⟩ := Option.map_eq_some_iff.mp hr
  exact places_self (h t ht)

theorem places_event {base : String} {i : Nat} {t : Tree} (h : Piece source t)
    {entry : Tree.EventEntry} (hentry : entry ∈ t.eventEntries) :
    ∀ r ∈ Build.eventRecords ⟨naming, source.toList⟩ base i entry, Places source r.2 := by
  obtain ⟨child, hchild, hentry⟩ := List.mem_filterMap.mp hentry
  have hinside := Tree.inside_of_mem h hchild
  split at hentry
  · obtain rfl := Option.some.inj hentry
    simp only [Build.eventRecords, List.forall_mem_cons]
    exact ⟨places_self ⟨hinside, rfl⟩, places_self ⟨hinside, rfl⟩, List.forall_mem_nil _⟩
  · obtain rfl := Option.some.inj hentry
    rw [Build.eventRecords, List.forall_mem_cons]
    refine ⟨places_self ⟨hinside, rfl⟩, fun r hr => ?_⟩
    obtain ⟨⟨event, j⟩, hevent, hr⟩ := List.mem_flatMap.mp hr
    have hevent : InnerNode source event :=
      .of_childrenOf hinside.part _ event (List.fst_mem_of_mem_zipIdx hevent)
    rcases List.mem_pair.mp hr with rfl | rfl <;> exact places_self hevent
  · exact nomatch hentry

theorem places_withEvents {path : String} {t : Tree} (h : Piece source t) :
    ∀ r ∈ Build.withEventsRecords ⟨naming, source.toList⟩ path t, Places source r.2 := by
  rw [Build.withEventsRecords]
  cases hlist : t.child? .withEvents with
  | none => exact nofun
  | some list =>
      have hinner := InnerNode.of_child? h _ list hlist
      refine List.forall_mem_cons.mpr ⟨places_self hinner, fun r hr => ?_⟩
      obtain ⟨⟨entry, i⟩, hentry, hr⟩ := List.mem_flatMap.mp hr
      exact places_event hinner.piece (List.fst_mem_of_mem_zipIdx hentry) r hr

/-- Methods and commands record the same parts. -/
theorem places_operation {path : String} {t : Tree} (h : InnerNode source t) :
    ∀ r ∈ Build.operationRecords ⟨naming, source.toList⟩ path t, Places source r.2 := by
  have hparameter : ∀ u ∈ Build.parameterNode? t, InnerNode source u := by
    intro u hu
    obtain ⟨params, hparams, hu⟩ := Option.bind_eq_some_iff.mp hu
    exact .of_child? (h.piece.child? _ params hparams) _ u hu
  rw [Build.operationRecords, List.forall_mem_append]
  simp only [List.forall_mem_cons]
  exact ⟨places_withEvents h.piece, places_self h, places_child h.piece _, places_locate hparameter,
    List.forall_mem_nil _⟩

/-- A block of fields in the field that it belongs to. -/
structure Belongs (source : String) (parent : Option Tree) (block : Tree) : Prop where
  isBlock : block.isNode .nestedField = true
  owner : ∃ children, parent = some (.node .field children) ∧ block ∈ children ∧
    Piece source (.node .field children) ∧
      (kindsOf children).Pairwise fun a b => NodeKind.field.clashes a b = false

theorem belongs_child {within kind : NodeKind} {children : List Tree} {t : Tree}
    (hshaped : Shaped within (.node kind children)) (h : Piece source (.node kind children))
    (ht : t ∈ children) (hblock : t.isNode .nestedField = true) :
    Belongs source (some (.node kind children)) t := by
  cases hshaped with
  | node hholds hturn _ _ =>
  have hkind : NodeKind.nestedField ∈ NodeKind.holds within kind :=
    hholds _ (List.mem_filterMap.mpr ⟨t, ht, beq_iff_eq.mp hblock⟩)
  obtain rfl := List.mem_singleton.mp (mem_standsIn hkind (by decide))
  exact ⟨hblock, children, rfl, ht, h, hturn⟩

theorem places_opening {home : Option Home} {parent : Option Tree} {kind : NodeKind} {t : Tree}
    {o : Opening} (h : InnerNode source t) (hblock : kind = .nestedField → Belongs source parent t)
    (ho : opening ⟨naming, source.toList⟩ home parent kind t = some o) :
    ∀ r ∈ o.records, Places source r.2 := by
  cases kind
  case nestedField =>
    obtain ⟨hkind, children, rfl, hmem, howner, hturn⟩ := hblock rfl
    obtain ⟨owner, home, hparent, -, rfl⟩ := opening_block ho
    obtain rfl := Option.some.inj hparent
    simp only [Build.nestedField, List.forall_mem_append, List.forall_mem_cons]
    exact ⟨places_validations (.of_childrenOf h.piece _), places_block howner hmem hkind hturn,
      places_child howner _, places_child howner _, places_self h, List.forall_mem_nil _⟩
  case plugin =>
    have hinherit : ∀ u ∈ Build.inheritNode? t, InnerNode source u := by
      intro u hu
      obtain ⟨options, hoptions, hu⟩ := Option.bind_eq_some_iff.mp hu
      exact .of_child? (h.piece.child? _ options hoptions) _ u hu
    obtain rfl := Option.some.inj ho
    simp only [Build.plugin, List.forall_mem_cons]
    exact ⟨places_self h, places_child h.piece _, places_comment h.piece, places_child h.piece _,
      places_child h.piece _, places_locate hinherit, List.forall_mem_nil _⟩
  case field =>
    obtain ⟨home, -, rfl⟩ := Option.map_eq_some_iff.mp ho
    simp only [Build.field, List.forall_mem_append, List.forall_mem_cons]
    exact ⟨places_validations (.of_childrenOf h.piece _), places_self h, places_child h.piece _,
      places_child h.piece _, places_anyJavadoc h.piece, List.forall_mem_nil _⟩
  case serviceMethod =>
    obtain ⟨home, -, rfl⟩ := Option.map_eq_some_iff.mp ho
    exact List.forall_mem_cons.mpr ⟨places_child h.piece _, places_operation h⟩
  case aggregateCommand =>
    obtain ⟨home, -, rfl⟩ := Option.map_eq_some_iff.mp ho
    exact places_operation h
  all_goals first
    | exact absurd ho.symm (Option.some_ne_none o)
    | obtain rfl := Option.some.inj ho
  case api =>
    simp only [Build.api, List.forall_mem_cons]
    exact ⟨places_self h, places_child h.piece _, places_child h.piece _,
      places_child h.piece _, List.forall_mem_nil _⟩
  case entity | input | output | event =>
    simp only [Build.declaration, List.forall_mem_cons]
    exact ⟨places_self h, places_child h.piece _, places_child h.piece _,
      places_child h.piece _, List.forall_mem_nil _⟩
  case enumeration =>
    simp only [Build.enumeration, List.forall_mem_cons]
    exact ⟨places_self h, places_child h.piece _, places_child h.piece _, List.forall_mem_nil _⟩
  case service | legacyService =>
    simp only [Build.service, Build.legacyService, Build.serviceRecords, List.forall_mem_cons]
    exact ⟨places_self h, places_child h.piece _, places_child h.piece _, List.forall_mem_nil _⟩
  case aggregate =>
    simp only [Build.aggregate, List.forall_mem_cons]
    exact ⟨places_self h, places_child h.piece _, places_child h.piece _, List.forall_mem_nil _⟩

theorem places_end {path : String} {side : Build.Side} {e : Tree} (h : Piece source e) :
    ∀ r ∈ Build.endRecords ⟨naming, source.toList⟩ path side e, Places source r.2 := by
  have hinjected : ∀ field ∈ e.child? .relationshipField, Piece source field ∧
      field.kind? = some .relationshipField :=
    fun field hfield => ⟨h.child? _ field hfield, (Tree.child?_spec hfield).2⟩
  have hkept : ∀ t ∈ e.injectedValidations, InnerNode source t := by
    intro t ht
    rw [Tree.injectedValidations] at ht
    split at ht
    · exact nomatch ht
    · rename_i field hfield
      exact .of_childrenOf (hinjected field hfield).1 _ t ht
  have hname : ∀ t ∈ (e.child? .relationshipField).bind (·.child? .name), InnerNode source t := by
    intro t ht
    obtain ⟨field, hfield, ht⟩ := Option.bind_eq_some_iff.mp ht
    exact .of_child? (hinjected field hfield).1 _ t ht
  rw [Build.endRecords, List.forall_mem_append]
  simp only [List.forall_mem_cons]
  refine ⟨fun r hr => ?_, ?_, places_child h _, places_locate hname, List.forall_mem_nil _⟩
  · obtain ⟨⟨t, name, v⟩, hmem, rfl⟩ := List.mem_map.mp hr
    obtain ⟨t', ht', heq⟩ := List.mem_filterMap.mp hmem
    obtain ⟨_, -, heq⟩ := Option.map_eq_some_iff.mp heq
    obtain rfl := (Prod.mk.inj heq).1
    exact places_self (hkept t' ht')
  · rw [Build.endValidations, Tree.injectedValidations]
    cases hfield : e.child? .relationshipField with
    | none => exact fun _ hs => nomatch hs
    | some field =>
        obtain ⟨hpiece, hkind⟩ := hinjected field hfield
        cases field with
        | leaf => exact nomatch hkind
        | node kind children =>
            obtain rfl := Option.some.inj hkind
            show Places source (Build.coverOf (List.head? _) (List.getLast? _))
            rw [keptSpans_eq]
            exact places_kept hpiece

theorem places_relation {group : Option Tree} {t : Tree} (h : InnerNode source t) :
    ∀ r ∈ (Build.relation ⟨naming, source.toList⟩ group t).records, Places source r.2 := by
  have hend : ∀ side path, ∀ r ∈ ((Build.endOn t side).map
      (Build.endRecords ⟨naming, source.toList⟩ path side)).getD [], Places source r.2 := by
    intro side path
    cases hside : Build.endOn t side with
    | none => exact nofun
    | some e => exact places_end (h.piece.child? _ e (Option.filter_eq_some_iff.mp hside).1)
  rw [Build.relation, List.forall_mem_append, List.forall_mem_append]
  exact ⟨⟨List.forall_mem_singleton.mpr (places_self h), hend _ _⟩, hend _ _⟩

/-! ### The index -/

/-- Of the parts that nothing belongs to, only a relationship records spans. -/
theorem recorded_single {input : BuildInput} {parent : Option Tree} {kind : NodeKind} {t : Tree}
    {records : Records} (h : .recorded records ∈ single input parent kind t) :
    records = (Build.relation input (parent.filter (Tree.isNode .relationshipGroup)) t).records := by
  cases kind <;> first
    | exact absurd h List.not_mem_nil
    | simp only [single, entered, List.mem_cons, List.mem_map, List.not_mem_nil, reduceCtorEq,
        Change.recorded.injEq, and_false, exists_false, or_false, or_self] at h
  exact h

theorem recorded_reservation {place : Place} {records : Records} :
    .recorded records ∉ reservation place := by
  rw [reservation]
  split <;> simp

theorem recorded_storage {place : Place} {v : Value} {records : Records} :
    .recorded records ∉ storage place v := by
  rw [storage]
  split <;> simp

/-- **Whatever stands in a text records what is placed there.** -/
theorem places_changes (t : Tree) : ∀ {within : NodeKind} {home : Option Home}
    {parent : Option Tree}, Shaped within t → t.Inside (parse source).tree →
    (t.isNode .nestedField = true → Belongs source parent t) →
    ∀ records, .recorded records ∈ changes ⟨naming, source.toList⟩ home parent t →
      ∀ r ∈ records, Places source r.2 := by
  induction t using Tree.induct with
  | leaf => exact fun _ _ _ _ h => nomatch h
  | node kind children ih =>
      intro within home parent hshaped hinside hblock records hrecords
      have hinner : InnerNode source (.node kind children) := ⟨hinside, rfl⟩
      have hmembers : ∀ home, .recorded records ∈ changesOfAll ⟨naming, source.toList⟩ home
          (some (.node kind children)) children → ∀ r ∈ records, Places source r.2 := by
        intro home hmem
        rw [changesOfAll_eq] at hmem
        obtain ⟨u, hu, hmem⟩ := List.mem_flatMap.mp hmem
        obtain ⟨_, hpart⟩ := hshaped.child hu
        exact ih u hu hpart (Tree.inside_of_mem hinner.piece hu)
          (belongs_child hshaped hinner.piece hu) records hmem
      rw [changes] at hrecords
      cases hopening : opening ⟨naming, source.toList⟩ home parent kind (.node kind children) with
      | some o =>
          rw [hopening] at hrecords
          simp only [List.mem_append, List.mem_cons, Change.recorded.injEq] at hrecords
          rcases hrecords with ((rfl | hmem) | hmem) | hmem
          · refine places_opening hinner (fun hnested => hblock ?_) hopening
            rw [hnested]
            rfl
          · exact absurd hmem recorded_reservation
          · exact hmembers _ hmem
          · exact absurd hmem recorded_storage
      | none =>
          rw [hopening] at hrecords
          rcases List.mem_append.mp hrecords with hmem | hmem
          · rw [recorded_single hmem]
            exact places_relation hinner
          · exact hmembers _ hmem

theorem placed_records (records : Records) (hrecords : ∀ r ∈ records, Places source r.2) :
    ∀ index : Locations, index.Proper → (∀ e ∈ index.entries, Placed source e.2.span) →
      (records.foldl (fun index r => match r.2 with
        | some span => index.record r.1 span
        | none => index) index).Proper ∧
      ∀ e ∈ (records.foldl (fun index r => match r.2 with
        | some span => index.record r.1 span
        | none => index) index).entries, Placed source e.2.span := by
  induction records with
  | nil => exact fun _ hproper hplaced => ⟨hproper, hplaced⟩
  | cons r records ih =>
      intro index hproper hplaced
      rw [List.foldl_cons]
      refine ih (fun r' hr' => hrecords r' (List.mem_cons_of_mem _ hr')) _ ?_ ?_
      · split
        · exact hproper.record ..
        · exact hproper
      · split
        · rename_i span hspan
          intro e he
          rcases Locations.mem_record he with rfl | hmem
          · exact hrecords r (List.mem_cons_self ..) span hspan
          · exact hplaced e hmem
        · exact hplaced

/-- What is recorded goes into the index; nothing else does. -/
theorem placed_changes (cs : List Change)
    (hcs : ∀ records, .recorded records ∈ cs → ∀ r ∈ records, Places source r.2) :
    ∀ d : Draft, d.locations.Proper → (∀ e ∈ d.locations.entries, Placed source e.2.span) →
      (cs.foldl Draft.change d).locations.Proper ∧
        ∀ e ∈ (cs.foldl Draft.change d).locations.entries, Placed source e.2.span := by
  induction cs with
  | nil => exact fun _ hproper hplaced => ⟨hproper, hplaced⟩
  | cons change cs ih =>
      intro d hproper hplaced
      have hrest := ih (fun records hmem => hcs records (List.mem_cons_of_mem _ hmem))
        (d.change change)
      cases change with
      | recorded records =>
          obtain ⟨hproper', hplaced'⟩ := placed_records records
            (hcs records (List.mem_cons_self ..)) d.locations hproper hplaced
          exact hrest hproper' hplaced'
      | _ => exact hrest hproper hplaced

end

/-- **Every span in the index of a text is that of a node, a doc comment or a run.** -/
theorem placed_locations (naming : Naming) (source : String) :
    (Direct.model naming source).locations.Proper ∧
      ∀ e ∈ (Direct.model naming source).locations.entries, Placed source e.2.span := by
  refine placed_changes _ (fun records hrecords => ?_) {} .empty (fun _ h => nomatch h)
  have hshaped := shaped_parse source
  have hwhole : Piece source (parse source).tree := .whole
  obtain ⟨children, htree⟩ := parse_tree source
  -- The text as a whole records nothing.
  have hmembers : .recorded records ∈ changesOfAll ⟨naming, source.toList⟩ none
      (some (parse source).tree) (parse source).tree.children := by
    rw [htree] at hrecords ⊢
    exact hrecords
  rw [changesOfAll_eq] at hmembers
  obtain ⟨u, hu, hmem⟩ := List.mem_flatMap.mp hmembers
  obtain ⟨_, hpart⟩ := hshaped.child hu
  refine places_changes u hpart (Tree.inside_of_mem hwhole hu) ?_ records hmem
  rw [htree] at hshaped hu hwhole ⊢
  exact belongs_child hshaped hwhole hu

/-- **Every span in the index of a text is cut from it along a stretch of its tree.** -/
theorem cut_locations (naming : Naming) (source : String) :
    (Direct.model naming source).locations.Proper ∧
      ∀ e ∈ (Direct.model naming source).locations.entries, Cut source e.2.span := by
  obtain ⟨hproper, hplaced⟩ := placed_locations naming source
  exact ⟨hproper, fun e he => (hplaced e he).cut⟩

/-! ### What is cut from a text -/

namespace Cut

variable {source : String} {s t : Span}

theorem laminar (h : Cut source s) (h' : Cut source t) : s.range.Laminar t.range := by
  obtain ⟨r, hr, -, rfl⟩ := h
  obtain ⟨r', hr', -, rfl⟩ := h'
  exact (hr.laminar hr').map (offset_mono _)

theorem boundaries (h : Cut source s) : Source.Boundary source.toList s.range.start ∧
    Source.Boundary source.toList s.range.stop := by
  obtain ⟨r, -, -, rfl⟩ := h
  exact ⟨boundary_offset _, boundary_offset _⟩

theorem eq_span (h : Cut source s) : s = Source.span source.toList s.range := by
  obtain ⟨r, -, -, rfl⟩ := h
  rfl

theorem start_eq (h : Cut source s) : s.start = Source.position source.toList s.range.start :=
  congrArg Span.start h.eq_span

theorem stop_eq (h : Cut source s) : s.stop = Source.position source.toList s.range.stop :=
  congrArg Span.stop h.eq_span

/-- No recorded span is empty. -/
theorem start_lt_stop (h : Cut source s) : s.range.start < s.range.stop := by
  obtain ⟨r, hr, hlt, rfl⟩ := h
  have hstop := hr.bounds.2
  rw [leaves_parse] at hstop
  exact offset_lt (fun _ ht => scan_nonempty ht) hlt (Nat.lt_of_lt_of_le hlt hstop)

theorem contains_iff (h : Cut source s) {n : Nat} (hn : Source.Boundary source.toList n) :
    s.contains (Source.position source.toList n) = true ↔ s.range.start ≤ n ∧ n ≤ s.range.stop := by
  obtain ⟨hstart, hstop⟩ := h.boundaries
  rw [h.eq_span]
  exact Source.contains_span hstart hstop hn

end Cut

end DomainModel
