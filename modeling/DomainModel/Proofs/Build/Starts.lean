/-
Where recorded spans begin.

Whatever a part of a text records begins with a leaf of it, or, since a block of fields also
records the type that it declares, with a leaf of the field around it (`begins_changes`).  No
two tokens of a text begin at the same byte.  So children of one node record spans that begin
at different bytes, and from the row of all records those that begin with one token can be
told apart without a look at their paths: `Records.LastAt` says that a record is the last of
them, and goes from a part to the whole as long as what is recorded behind it comes from
other parts.
-/
import DomainModel.Proofs.Build.Events
import Mathlib.Data.List.Pairwise

namespace DomainModel

open Direct

/-! ### Tokens begin at different bytes -/

namespace Tree

theorem leavesOfAll_eq (ts : List Tree) : leavesOfAll ts = ts.flatMap leaves := by
  induction ts with
  | nil => rfl
  | cons t ts ih => rw [leavesOfAll, ih, List.flatMap_cons]

theorem leaves_subset {t u : Tree} (h : u ∈ t.children) : u.leaves ⊆ t.leaves :=
  fun _ htoken => (part_of_mem h).mem_leaves htoken

/-- No token of the one tree begins where a token of the other does. -/
def Apart (t u : Tree) : Prop := ∀ x ∈ t.leaves, ∀ y ∈ u.leaves, x.start ≠ y.start

instance : Std.Symm Apart := ⟨fun _ _ h x hx y hy heq => h y hy x hx heq.symm⟩

/-- The leaves of the children of all kinds but one. -/
def leavesBeside (t : Tree) (kind : NodeKind) : List Token :=
  (t.children.filter fun u => !u.isNode kind).flatMap leaves

theorem child?_beside {t u : Tree} {kind kind' : NodeKind} (hkind : kind' ≠ kind)
    (h : t.child? kind' = some u) : u.leaves ⊆ t.leavesBeside kind := by
  obtain ⟨hmem, hu⟩ := child?_spec h
  have hother : u.isNode kind = false := by
    rw [isNode, hu]
    exact beq_false_of_ne fun heq => hkind (Option.some.inj heq)
  intro token htoken
  exact List.mem_flatMap.mpr ⟨u, List.mem_filter.mpr ⟨hmem, by rw [hother]; rfl⟩, htoken⟩

end Tree

/-- In a row of tokens each begins where the row up to it ends. -/
theorem Contiguous.start_eq {ts : List Token} (h : Contiguous 0 ts) {n : Nat} (hn : n < ts.length) :
    ts[n].start = offset ts n := by
  have hsplit : ts = ts.take n ++ ts[n] :: ts.drop (n + 1) := by simp
  rw [hsplit] at h
  rw [contiguous_split h, Nat.zero_add, offset]

theorem Contiguous.stop_eq {ts : List Token} (h : Contiguous 0 ts) {n : Nat} (hn : n < ts.length) :
    ts[n].stop = offset ts (n + 1) := by
  have hlast : (ts.take (n + 1)).getLast? = some ts[n] := by
    rw [List.take_add_one, List.getElem?_eq_getElem hn]
    exact List.getLast?_concat
  have hfront : Contiguous 0 (ts.take (n + 1)) := by
    rw [← List.take_append_drop (n + 1) ts] at h
    exact h.front
  rw [hfront.stop_last hlast, Nat.zero_add, offset]

section
variable {source : String} {t u : Tree}

/-- **No two leaves of a part of a text begin at the same byte.** -/
theorem Piece.starts_ne (h : Piece source t) : t.leaves.Pairwise fun x y => x.start ≠ y.start := by
  have hscan : (scan source).Pairwise fun x y => x.start ≠ y.start := by
    rw [List.pairwise_iff_getElem]
    intro m n hm hn hlt
    rw [(scan_contiguous source).start_eq hm, (scan_contiguous source).start_eq hn]
    exact Nat.ne_of_lt (offset_lt (fun _ ht => scan_nonempty ht) hlt hm)
  obtain ⟨before, after, hsplit⟩ := h.leaves_split
  rw [leaves_parse] at hsplit
  rw [hsplit] at hscan
  exact (List.pairwise_append.mp (List.pairwise_append.mp hscan).1).2.1

theorem Piece.apart_children (h : Piece source t) : t.children.Pairwise Tree.Apart := by
  cases t with
  | leaf => exact .nil
  | node kind children =>
      have hleaves := h.starts_ne
      rw [Tree.leaves, Tree.leavesOfAll_eq, List.pairwise_flatMap] at hleaves
      exact hleaves.2

/-- A child has nothing in common with the children of other kinds. -/
theorem Piece.apart_beside {kind : NodeKind} (h : Piece source t) (hu : t.child? kind = some u) :
    ∀ x ∈ u.leaves, ∀ y ∈ t.leavesBeside kind, x.start ≠ y.start := by
  intro x hx y hy
  obtain ⟨hmem, hkind⟩ := Tree.child?_spec hu
  obtain ⟨v, hv, hy⟩ := List.mem_flatMap.mp hy
  obtain ⟨hv, hother⟩ := List.mem_filter.mp hv
  refine h.apart_children.forall hmem hv ?_ x hx y hy
  rintro rfl
  rw [Tree.isNode, hkind, beq_self_eq_true] at hother
  exact Bool.noConfusion hother

end

/-! ### Spans that begin with tokens -/

/-- A span, where there is one, begins with one of some tokens. -/
def Begins (ts : List Token) (span : Option Span) : Prop :=
  ∀ s, span = some s → ∃ token ∈ ts, s.range.start = token.start

section
variable {input : BuildInput} {ts : List Token} {t : Tree}

/-- The span of a part begins with its first leaf. -/
theorem locate_start {part : Option Tree} {s : Span} (h : input.locate part = some s) :
    ∃ u ∈ part, ∃ first, u.leaves.head? = some first ∧ s.range.start = first.start := by
  obtain ⟨r, hr, rfl⟩ := Option.map_eq_some_iff.mp h
  obtain ⟨u, hu, hrange⟩ := Option.bind_eq_some_iff.mp hr
  simp only [Tree.range?, Option.bind_eq_bind, Option.bind_eq_some_iff] at hrange
  obtain ⟨first, hfirst, last, -, hrange⟩ := hrange
  obtain rfl := Option.some.inj hrange
  exact ⟨u, hu, first, hfirst, rfl⟩

theorem begins_locate {part : Option Tree} (h : ∀ u ∈ part, u.leaves ⊆ ts) :
    Begins ts (input.locate part) := by
  intro s hs
  obtain ⟨u, hu, first, hfirst, hstart⟩ := locate_start hs
  exact ⟨first, h u hu (List.mem_of_head? hfirst), hstart⟩

theorem begins_first {first : Token} {rest : List Token} (h : t.leaves = first :: rest) :
    Begins [first] (input.locate (some t)) := by
  intro s hs
  obtain ⟨u, hu, first', hfirst, hstart⟩ := locate_start hs
  rw [← Option.mem_some.mp hu, h, List.head?_cons] at hfirst
  exact ⟨first', List.mem_singleton.mpr (Option.some.inj hfirst).symm, hstart⟩

theorem begins_token {token : Option Token} (h : ∀ x ∈ token, x ∈ ts) :
    Begins ts (input.locateToken token) := by
  intro s hs
  obtain ⟨x, hx, rfl⟩ := Option.map_eq_some_iff.mp hs
  exact ⟨x, h x hx, rfl⟩

theorem Begins.cover {a b : Option Span} (ha : Begins ts a) (hb : Begins ts b) :
    Begins ts (Build.coverOf a b) := by
  intro s hs
  cases a with
  | none => exact nomatch hs
  | some first =>
      cases b with
      | none => exact nomatch hs
      | some last =>
          obtain rfl := Option.some.inj hs
          show ∃ token ∈ ts, min first.range.start last.range.start = token.start
          rw [Nat.min_def]
          split
          · exact ha first rfl
          · exact hb last rfl

theorem begins_self (h : t.leaves ⊆ ts) : Begins ts (input.locate (some t)) :=
  begins_locate fun _ hu => Option.some.inj hu ▸ h

theorem leaves_child? (h : t.leaves ⊆ ts) (kind : NodeKind) : ∀ u ∈ t.child? kind, u.leaves ⊆ ts :=
  fun _ hu => List.Subset.trans (Tree.leaves_subset (Tree.child?_spec hu).1) h

theorem leaves_childrenOf (h : t.leaves ⊆ ts) (kind : NodeKind) :
    ∀ u ∈ t.childrenOf kind, u.leaves ⊆ ts :=
  fun _ hu => List.Subset.trans (Tree.leaves_subset (List.mem_filter.mp hu).1) h

theorem begins_child (h : t.leaves ⊆ ts) (kind : NodeKind) :
    Begins ts (input.locate (t.child? kind)) := begins_locate (leaves_child? h kind)

/-- A child of a child. -/
theorem begins_grandchild (h : t.leaves ⊆ ts) (kind kind' : NodeKind) :
    Begins ts (input.locate ((t.child? kind).bind (·.child? kind'))) := by
  refine begins_locate fun u hu => ?_
  obtain ⟨v, hv, hu⟩ := Option.bind_eq_some_iff.mp hu
  exact leaves_child? (leaves_child? h kind v hv) kind' u hu

theorem mem_comment (h : t.leaves ⊆ ts) : ∀ x ∈ t.childToken? .javadoc, x ∈ ts :=
  fun _ hx => h (Tree.mem_leaves (Tree.childToken?_spec hx).1)

theorem begins_anyJavadoc (h : t.leaves ⊆ ts) : Begins ts (input.locateToken t.anyJavadoc?) := by
  refine begins_token fun x hx => ?_
  rw [Tree.anyJavadoc?, Option.orElse_eq_orElse, Option.orElse_eq_or, Option.mem_def,
    Option.or_eq_some_iff] at hx
  rcases hx with hx | ⟨-, hx⟩
  · exact mem_comment h x hx
  · obtain ⟨suffix, hsuffix, hx⟩ := Option.bind_eq_some_iff.mp hx
    exact mem_comment (leaves_child? h _ suffix hsuffix) x hx

/-! ### What constructs record -/

theorem begins_validations {path : String} (h : t.leaves ⊆ ts) :
    ∀ r ∈ Build.validationRecords input path t.validations, Begins ts r.2 := by
  intro r hr
  obtain ⟨u, hu, hr⟩ := List.mem_filterMap.mp hr
  obtain ⟨name, -, rfl⟩ := Option.map_eq_some_iff.mp hr
  exact begins_self (leaves_childrenOf h _ u hu)

/-- An entry of a list is a child of it, and its alternatives are children of that. -/
theorem entry_part {entry : Tree.EventEntry} (h : entry ∈ t.eventEntries) :
    entry.node ∈ t.children ∧ entry.alternatives.Sublist entry.node.children := by
  obtain ⟨child, hchild, hentry⟩ := List.mem_filterMap.mp h
  split at hentry
  · obtain rfl := Option.some.inj hentry
    exact ⟨hchild, List.nil_sublist _⟩
  · obtain rfl := Option.some.inj hentry
    exact ⟨hchild, List.filter_sublist⟩
  · exact nomatch hentry

theorem begins_event {base : String} {i : Nat} {entry : Tree.EventEntry}
    (hnode : entry.node.leaves ⊆ ts) (hparts : entry.alternatives ⊆ entry.node.children) :
    ∀ r ∈ Build.eventRecords input base i entry, Begins ts r.2 := by
  intro r hr
  cases entry with
  | single node => rcases List.mem_pair.mp hr with rfl | rfl <;> exact begins_self hnode
  | group node alternatives =>
      rcases List.mem_cons.mp hr with rfl | hr
      · exact begins_self hnode
      · obtain ⟨⟨event, j⟩, hevent, hr⟩ := List.mem_flatMap.mp hr
        have hevent : event ∈ node.children := hparts (List.fst_mem_of_mem_zipIdx hevent)
        have hleaves : event.leaves ⊆ ts := List.Subset.trans (Tree.leaves_subset hevent) hnode
        rcases List.mem_pair.mp hr with rfl | rfl <;> exact begins_self hleaves

theorem begins_withEvents {path : String} (h : t.leaves ⊆ ts) :
    ∀ r ∈ Build.withEventsRecords input path t, Begins ts r.2 := by
  rw [Build.withEventsRecords]
  cases hlist : t.child? .withEvents with
  | none => exact List.forall_mem_nil _
  | some list =>
      have hlist := leaves_child? h _ list hlist
      refine List.forall_mem_cons.mpr ⟨begins_self hlist, fun r hr => ?_⟩
      obtain ⟨⟨entry, i⟩, hentry, hr⟩ := List.mem_flatMap.mp hr
      obtain ⟨hnode, hparts⟩ := entry_part (List.fst_mem_of_mem_zipIdx hentry)
      exact begins_event (List.Subset.trans (Tree.leaves_subset hnode) hlist) hparts.subset r hr

theorem begins_operation {path : String} (h : t.leaves ⊆ ts) :
    ∀ r ∈ Build.operationRecords input path t, Begins ts r.2 := by
  rw [Build.operationRecords, List.forall_mem_append]
  simp only [List.forall_mem_cons]
  exact ⟨begins_withEvents h, begins_self h, begins_child h _, begins_grandchild h _ _,
    List.forall_mem_nil _⟩

theorem begins_end {path : String} {side : Build.Side} (h : t.leaves ⊆ ts) :
    ∀ r ∈ Build.endRecords input path side t, Begins ts r.2 := by
  have hkept : ∀ e ∈ Build.endValidations t, e.1.leaves ⊆ ts := by
    intro e he
    obtain ⟨u, hu, he⟩ := List.mem_filterMap.mp he
    obtain ⟨entry, -, rfl⟩ := Option.map_eq_some_iff.mp he
    rw [Tree.injectedValidations] at hu
    split at hu
    · exact absurd hu List.not_mem_nil
    · rename_i field hfield
      exact leaves_childrenOf (leaves_child? h _ field hfield) _ u hu
  -- The checks have a span together: that of the first and the last one that has one.
  have hspan : ∀ span ∈ (Build.endValidations t).filterMap fun e => input.locate (some e.1),
      Begins ts (some span) := by
    intro span hspan
    obtain ⟨e, he, hlocate⟩ := List.mem_filterMap.mp hspan
    rw [← hlocate]
    exact begins_self (hkept e he)
  have hsome : ∀ span : Option Span, (∀ s ∈ span, Begins ts (some s)) → Begins ts span :=
    fun span h s hs => h s hs s rfl
  rw [Build.endRecords, List.forall_mem_append]
  simp only [List.forall_mem_cons]
  refine ⟨fun r hr => ?_, (hsome _ fun s hs => hspan s (List.mem_of_head? hs)).cover
    (hsome _ fun s hs => hspan s (List.mem_of_getLast? hs)), begins_child h _,
    begins_grandchild h _ _, List.forall_mem_nil _⟩
  obtain ⟨e, he, rfl⟩ := List.mem_map.mp hr
  exact begins_self (hkept e he)

theorem begins_relation {group : Option Tree} (h : t.leaves ⊆ ts) :
    ∀ r ∈ (Build.relation input group t).records, Begins ts r.2 := by
  have hend : ∀ side path, ∀ r ∈ ((Build.endOn t side).map
      (Build.endRecords input path side)).getD [], Begins ts r.2 := by
    intro side path
    cases hside : Build.endOn t side with
    | none => exact List.forall_mem_nil _
    | some e => exact begins_end (leaves_child? h _ e (Option.filter_eq_some_iff.mp hside).1)
  rw [Build.relation, List.forall_mem_append, List.forall_mem_append]
  exact ⟨⟨List.forall_mem_singleton.mpr (begins_self h), hend _ _⟩, hend _ _⟩

/-- What a construct records begins in it; a block of fields also records the type in front of
it. -/
theorem begins_opening {home : Option Home} {parent : Option Tree} {kind : NodeKind} {o : Opening}
    (h : t.leaves ⊆ ts) (hparent : kind = .nestedField → ∀ owner ∈ parent, owner.leaves ⊆ ts)
    (ho : opening input home parent kind t = some o) : ∀ r ∈ o.records, Begins ts r.2 := by
  cases kind
  case nestedField =>
    obtain ⟨owner, home, howner, -, rfl⟩ := opening_block ho
    have howner := hparent rfl owner howner
    simp only [Build.nestedField, List.forall_mem_append, List.forall_mem_cons]
    exact ⟨begins_validations h, (begins_child howner _).cover (begins_self h),
      begins_child howner _, begins_child howner _, begins_self h, List.forall_mem_nil _⟩
  case field =>
    obtain ⟨home, -, rfl⟩ := Option.map_eq_some_iff.mp ho
    simp only [Build.field, List.forall_mem_append, List.forall_mem_cons]
    exact ⟨begins_validations h, begins_self h, begins_child h _, begins_child h _,
      begins_anyJavadoc h, List.forall_mem_nil _⟩
  case serviceMethod =>
    obtain ⟨home, -, rfl⟩ := Option.map_eq_some_iff.mp ho
    exact List.forall_mem_cons.mpr ⟨begins_child h _, begins_operation h⟩
  case aggregateCommand =>
    obtain ⟨home, -, rfl⟩ := Option.map_eq_some_iff.mp ho
    exact begins_operation h
  all_goals first
    | exact absurd ho.symm (Option.some_ne_none o)
    | obtain rfl := Option.some.inj ho
  all_goals
    simp only [Build.api, Build.plugin, Build.declaration, Build.enumeration, Build.service,
      Build.legacyService, Build.serviceRecords, Build.aggregate, List.forall_mem_cons]
    repeat' apply And.intro
    all_goals first
      | exact List.forall_mem_nil _
      | exact begins_self h
      | exact begins_child h _
      | exact begins_token (mem_comment h)
      | exact begins_grandchild h _ _

/-- **What is recorded in a part of a text begins in it.** -/
theorem begins_changes (t : Tree) : ∀ {home : Option Home} {parent : Option Tree},
    t.leaves ⊆ ts → (t.isNode .nestedField = true → ∀ owner ∈ parent, owner.leaves ⊆ ts) →
    ∀ r ∈ recordsOf (changes input home parent t), Begins ts r.2 := by
  induction t using Tree.induct with
  | leaf => exact fun _ _ _ hr => nomatch hr
  | node kind children ih =>
      intro home parent h hparent r hr
      have hmembers : ∀ home, r ∈ recordsOf (changesOfAll input home (some (.node kind children))
          children) → Begins ts r.2 := by
        intro home hr
        rw [changesOfAll_eq, recordsOf_flatMap, List.mem_flatMap] at hr
        obtain ⟨u, hu, hr⟩ := hr
        have hleaves : u.leaves ⊆ (Tree.node kind children).leaves := Tree.leaves_subset hu
        exact ih u hu (List.Subset.trans hleaves h)
          (fun _ owner howner => Option.mem_some.mp howner ▸ h) r hr
      cases hopening : opening input home parent kind (.node kind children) with
      | some o =>
          rw [recordsOf_opening hopening, List.mem_append] at hr
          rcases hr with hr | hr
          · refine begins_opening h (fun hkind => hparent ?_) hopening r hr
            rw [hkind]
            rfl
          · exact hmembers _ hr
      | none =>
          rw [recordsOf_single hopening, List.mem_append] at hr
          rcases hr with hr | hr
          · obtain ⟨records, hrecords, hr⟩ := mem_recordsOf hr
            rw [recorded_single hrecords] at hr
            exact begins_relation h r hr
          · exact hmembers _ hr

end

/-! ### The last record that begins somewhere -/

/-- A record has no span, or one that begins at another byte. -/
def Elsewhere (start : Nat) (r : String × Option Span) : Prop :=
  ∀ s, r.2 = some s → s.range.start ≠ start

theorem Elsewhere.of_begins {ts : List Token} {r : String × Option Span} {start : Nat}
    (h : Begins ts r.2) (hts : ∀ token ∈ ts, start ≠ token.start) : Elsewhere start r := by
  intro s hs heq
  obtain ⟨token, htoken, hstart⟩ := h s hs
  exact hts token htoken (heq.symm.trans hstart)

namespace Records

/-- That a path has this span is the last of some records that begin where it does. -/
def LastAt (rs : Records) (path : String) (span : Span) : Prop :=
  ∃ front back, rs = front ++ (path, some span) :: back ∧
    ∀ r ∈ back, Elsewhere span.range.start r

variable {rs : Records} {path : String} {span : Span}

theorem LastAt.behind (front : Records) (h : LastAt rs path span) :
    LastAt (front ++ rs) path span := by
  obtain ⟨before, after, rfl, hafter⟩ := h
  exact ⟨front ++ before, after, (List.append_assoc ..).symm, hafter⟩

theorem LastAt.before {back : Records} (h : LastAt rs path span)
    (hback : ∀ r ∈ back, Elsewhere span.range.start r) : LastAt (rs ++ back) path span := by
  obtain ⟨before, after, rfl, hafter⟩ := h
  exact ⟨before, after ++ back, by rw [List.append_assoc, List.cons_append],
    List.forall_mem_append.mpr ⟨hafter, hback⟩⟩

/-- **Of a row of parts, what one records last it records last among all**, since what the
others record begins in them. -/
theorem LastAt.flatMap {α : Type} {f : α → Records} (part : α → Tree) {as : List α}
    (hpairwise : as.Pairwise fun a b => (part a).Apart (part b)) {a : α} (ha : a ∈ as)
    (h : LastAt (f a) path span) {token : Token} (htoken : token ∈ (part a).leaves)
    (hstart : span.range.start = token.start)
    (hbegins : ∀ b ∈ as, ∀ r ∈ f b, Begins (part b).leaves r.2) :
    LastAt (as.flatMap f) path span := by
  obtain ⟨front, back, rfl⟩ := List.append_of_mem ha
  have hapart := (List.pairwise_cons.mp (List.pairwise_append.mp hpairwise).2.1).1
  rw [List.flatMap_append, List.flatMap_cons]
  refine (h.before fun r hr => ?_).behind _
  obtain ⟨b, hb, hr⟩ := List.mem_flatMap.mp hr
  have hmem : b ∈ front ++ a :: back := List.mem_append_right _ (List.mem_cons_of_mem _ hb)
  refine .of_begins (hbegins b hmem r hr) fun other hother => ?_
  rw [hstart]
  exact hapart b hb token htoken other hother

end Records

end DomainModel
