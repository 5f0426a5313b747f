/-
Fields that are declared again.

A declaration may contain one of its own name in its own collection, and the fields of both are
recorded below one path.  Of the records for the type of a field the last counts.  It comes
from a field of that name, of the declaration that is kept or of one of its name inside it
(`field_of_record`).  The field that is kept itself has recorded its type, so the path leads
somewhere; and since fields are recorded in the order in which they begin, it leads to that
type unless a declaration inside the field or inside one behind it gives the name another type
(`Redeclared`, `location?_type`).
-/
import DomainModel.Proofs.Build.Quotes

namespace DomainModel

open Direct
open DomainModel.Path (Under steps)

/-- The fields of a declaration. -/
def Direct.Site.fields (s : Site) : List Tree :=
  members s.node s.kind ⟨"fields", .field, fieldEntry⟩

/-- The constructs inside a field of a declaration in a collection. -/
def Direct.blocks (c : Collection) (t : Tree) : List Site :=
  sitesAfterAll (some c) (some t) t.children

/-- The last field of its name in a declaration that is kept, and the fields behind it. -/
structure Direct.LastField (t : Tree) (c : Collection) (name : String) (s : Site) (u : Tree)
    (back : List Tree) : Prop where
  fielded : c ∈ Collection.withFields
  kept : kept? c name t = some s
  stands : ∃ front, s.fields = front ++ u :: back
  last : ∀ v ∈ back, v.nameOrEmpty ≠ u.nameOrEmpty

theorem Direct.LastField.mem_fields {t : Tree} {c : Collection} {name : String} {s : Site} {u : Tree}
    {back : List Tree} (h : LastField t c name s u back) : ∀ w ∈ u :: back, w ∈ s.fields := by
  obtain ⟨front, hfields⟩ := h.stands
  intro w hw
  rw [hfields]
  exact List.mem_append_right _ hw

/-- The path of the type of a field whose name is declared again: a declaration inside the
field, or inside one behind it, has the name and the collection of the one around them and
gives a field of that name another type. -/
def Direct.Redeclared (t : Tree) (path : String) : Prop :=
  ∃ c name s u back, LastField t c name s u back ∧
    path = ".".intercalate [c.key, name, "fields", u.nameOrEmpty, "type"] ∧
    ∃ w ∈ u :: back, ∃ s' ∈ blocks c w, s'.collection = c ∧ s'.name = name ∧
      ∃ v ∈ s'.fields, v.nameOrEmpty = u.nameOrEmpty ∧
        (Build.fieldTypeOf v).1 ≠ (Build.fieldTypeOf u).1

/-- Nothing is declared again where no declaration has a field in common with one of its own
name inside it. -/
theorem not_redeclared {t : Tree}
    (h : ∀ s ∈ sitesAfter none none t, ∀ w ∈ s.fields, ∀ s' ∈ blocks s.collection w,
      s'.collection = s.collection → s'.name = s.name → ∀ u ∈ s.fields, ∀ v ∈ s'.fields,
        v.nameOrEmpty ≠ u.nameOrEmpty) (path : String) : ¬Redeclared t path := by
  rintro ⟨c, name, s, u, back, hlast, -, w, hw, s', hs', hcollection, hname, v, hv, hsame, -⟩
  obtain ⟨rfl, rfl, -⟩ := kept?_eq_some hlast.kept
  exact h s (kept?_mem hlast.kept) w (hlast.mem_fields w hw) s' hs' hcollection hname u
    (hlast.mem_fields u (List.mem_cons_self ..)) v hv hsame

/-! ### Records of types -/

section
variable {input : BuildInput} {c : Collection} {name field : String} {r : String × Option Span}

theorem under_of_steps {rest : List String} {path : String}
    (h : steps path = c.key :: name :: rest) : Under [c.key, name] path := by
  rw [Under, h]
  exact List.prefix_append [c.key, name] rest

theorem steps_field (c : Collection) (hname : Dotless name) (hfield : Dotless field) :
    steps (c.key ++ "." ++ name ++ ".fields." ++ field) = [c.key, name, "fields", field] := by
  rw [← Path.steps_member c hname (by decide) hfield]
  congr 1
  apply String.toList_inj.mp
  simp

/-- A field records a type for no name but its own, and that is where its type stands. -/
theorem type_of_field (hname : Dotless name) {v : Tree} (hv : Dotless v.nameOrEmpty)
    (hr : r ∈ (Build.field input (Home.scope ⟨c.key ++ "." ++ name, c⟩ []) v).records)
    (hsteps : steps r.1 = [c.key, name, "fields", field, "type"]) :
    v.nameOrEmpty = field ∧ r.2 = input.locate (v.child? .fieldType) := by
  obtain ⟨path, hpath⟩ : ∃ path, c.key ++ "." ++ name ++ ".fields." ++ v.nameOrEmpty = path :=
    ⟨_, rfl⟩
  have hplace : steps path = [c.key, name, "fields", v.nameOrEmpty] :=
    hpath ▸ steps_field c hname hv
  have hne : path ≠ "" := by
    rw [← hpath]
    simp
  have htail : ∀ tail key : String, tail = "." ++ key → Dotless key → r.1 = path ++ tail →
      v.nameOrEmpty = field ∧ key = "type" := by
    intro tail key htail hkey heq
    rw [heq, Path.steps_dot tail key hne htail hkey, hplace] at hsteps
    simpa using hsteps
  simp only [Build.field, Home.scope, hpath, List.mem_append, List.mem_cons, List.not_mem_nil,
    or_false] at hr
  rcases hr with hr | rfl | rfl | rfl | rfl
  · obtain ⟨check, heq⟩ := path_of_validations r hr
    have hlong := (Path.two_steps hne "validations" check).2
    have hsame : path ++ "." ++ ("validations" ++ "." ++ check) = r.1 := by
      rw [heq]
      apply String.toList_inj.mp
      simp
    rw [hsame, hsteps, hplace] at hlong
    simp at hlong
  · rw [hplace] at hsteps
    simp at hsteps
  · exact absurd (htail ".name" "name" rfl (by decide) rfl).2 (by decide)
  · exact ⟨(htail ".type" "type" rfl (by decide) rfl).1, rfl⟩
  · exact absurd (htail ".javadoc" "javadoc" rfl (by decide) rfl).2 (by decide)

/-- What a declaration records itself lies at most one step below its path. -/
theorem short_of_declaration (hc : c ∈ Collection.withFields) (hname : Dotless name)
    {inside : Option Collection} {s : Site} (hcollection : collectionOf inside s.kind = some c)
    {children : List Tree} {home : Option Home} {o : Opening}
    (hstands : StandsAt input c name s children home o) (hr : r ∈ o.records)
    (hown : ∀ owner ∈ home, ¬owner.Checks r) : (steps r.1).length ≤ 3 := by
  have hopening := hstands.opening
  have hpath := hstands.path
  have hne : c.key ++ "." ++ name ≠ "" := by simp
  have hshort : ∀ tail key : String, tail = "." ++ key → Dotless key →
      (steps (c.key ++ "." ++ name ++ tail)).length ≤ 3 := by
    intro tail key htail hkey
    rw [Path.steps_dot tail key hne htail hkey, Path.steps_key c hname]
    exact Nat.le_refl 3
  have hself : (steps (c.key ++ "." ++ name)).length ≤ 3 := by
    rw [Path.steps_key c hname]
    exact Nat.le_succ 2
  have hrecords : r.1 = o.scope.path ∨ r.1 = o.scope.path ++ ".name" ∨
      r.1 = o.scope.path ++ ".tableName" ∨ r.1 = o.scope.path ++ ".body" := by
    generalize s.kind = kind at hcollection hopening
    cases kind
    case entity | input | output | event =>
      obtain rfl := Option.some.inj hopening
      simp only [Build.declaration, List.mem_cons, List.not_mem_nil, or_false] at hr
      rcases hr with rfl | rfl | rfl | rfl <;> simp [Build.declaration]
    case nestedField =>
      obtain ⟨owner, place, -, rfl, rfl⟩ := opening_block hopening
      simp only [Build.nestedField, List.mem_append, List.mem_cons, List.not_mem_nil,
        or_false] at hr
      rcases hr with hr | rfl | rfl | rfl | rfl
      · exact absurd (path_of_validations r hr) (hown place rfl)
      all_goals simp [Build.nestedField]
    all_goals first
      | exact absurd hcollection.symm (Option.some_ne_none c)
      | obtain rfl := Option.some.inj hcollection
        exact absurd hc (by decide)
  rw [hpath] at hrecords
  rcases hrecords with h | h | h | h <;> rw [h]
  · exact hself
  · exact hshort ".name" "name" rfl (by decide)
  · exact hshort ".tableName" "tableName" rfl (by decide)
  · exact hshort ".body" "body" rfl (by decide)

end

/-! ### The fields they come from -/

theorem inner_subset_all {inside : Option Collection} {parent : Option Tree} {ts : List Tree}
    {s : Site} (hs : s ∈ sitesAfterAll inside parent ts) :
    s.inner ⊆ sitesAfterAll inside parent ts := by
  rw [sitesAfterAll_eq] at hs ⊢
  obtain ⟨u, hu, hs⟩ := List.mem_flatMap.mp hs
  intro s' hs'
  exact List.mem_flatMap.mpr ⟨u, hu, inner_subset u s hs hs'⟩

section
variable {naming : Naming} {source : String} {c : Collection} {name field : String}
  {r : String × Option Span} {s : Site}

/-- A declaration with fields has a slot for them. -/
theorem slot_of_site (hc : c ∈ Collection.withFields) (h : s ∈ sitesAfter none none (parse source).tree)
    (hcollection : s.collection = c) :
    ⟨"fields", .field, fieldEntry⟩ ∈ memberSlots s.node s.kind := by
  obtain ⟨inside, hplace⟩ := (proper_of_mem (shaped_parse source) h).place
  exact fields_slot hc (hcollection ▸ hplace) s.node

theorem blocks_subset (hc : c ∈ Collection.withFields)
    (h : s ∈ sitesAfter none none (parse source).tree) (hcollection : s.collection = c) {w : Tree}
    (hw : w ∈ s.fields) : blocks c w ⊆ s.inner := by
  intro s' hs'
  rw [Direct.Site.inner, hcollection]
  exact sites_member (slot_of_site hc h hcollection) (by decide) hw s' hs'

/-- A record for the type of a field that is made in a field is its own, or comes from a
declaration of the same name inside it. -/
theorem record_of_field (hc : c ∈ Collection.withFields)
    (h : s ∈ sitesAfter none none (parse source).tree) (hcollection : s.collection = c)
    (hname : s.name = name) (hsteps : steps r.1 = [c.key, name, "fields", field, "type"])
    {w : Tree} (hw : w ∈ s.fields) (hr : r ∈ recordsOf
      (changes ⟨naming, source.toList⟩ (some ⟨c.key ++ "." ++ name, c⟩) none w)) :
    w.nameOrEmpty = field ∧
        r.2 = BuildInput.locate ⟨naming, source.toList⟩ (w.child? .fieldType) ∨
      ∃ s' ∈ blocks c w, s'.collection = c ∧ s'.name = name ∧
        s'.Recorded ⟨naming, source.toList⟩ r := by
  have hplain : ∀ s' ∈ sitesAfter none none (parse source).tree, Dotless s'.name :=
    fun s' hs' => site_dotless (shaped_parse source) (Tree.plain_parse source) hs'
  have hdotless : Dotless name := hname ▸ hplain s h
  obtain ⟨hnode, hv, -, within, hshaped⟩ := dotless_member h hw
  obtain ⟨children, rfl⟩ := Tree.exists_node (beq_iff_eq.mp hnode)
  rw [recordsOf_opening rfl, List.mem_append] at hr
  refine hr.imp (fun hr => type_of_field hdotless hv hr hsteps) fun hr => ?_
  rw [changesOfAll_eq, recordsOf_flatMap] at hr
  obtain ⟨u, hu, hr⟩ := List.mem_flatMap.mp hr
  obtain ⟨_, hpart⟩ := hshaped.child hu
  have hinside : ∀ s' ∈ sitesAfter (some c) (some (.node .field children)) u,
      s' ∈ blocks c (.node .field children) := by
    intro s' hs'
    rw [blocks, sitesAfterAll_eq]
    exact List.mem_flatMap.mpr ⟨u, hu, hs'⟩
  have hne : c.key ++ "." ++ name ++ ".fields." ++ (Tree.node .field children).nameOrEmpty ≠ "" := by
    simp
  have hrel : c ≠ .relationships := fun heq => absurd (heq ▸ hc) (by decide)
  have hdots : ∀ s' ∈ sitesAfter (some c) (some (.node .field children)) u, Dotless s'.name :=
    fun s' hs' =>
      hplain s' (inner_subset _ s h (blocks_subset hc h hcollection hw (hinside s' hs')))
  rcases @under_changes _ c name hrel u _
    (some ⟨c.key ++ "." ++ name ++ ".fields." ++ (Tree.node .field children).nameOrEmpty, c⟩) _
    hpart (fun _ => rfl) (fun owner howner => Option.mem_some.mp howner ▸ hne) hdots r hr
    (under_of_steps hsteps) with
    ⟨owner, howner, hdeep⟩ | ⟨s', hs', hsame⟩
  · -- Below the field everything but its own records lies two steps deeper.
    obtain rfl := Option.mem_some.mp howner
    have hlong : (steps (c.key ++ "." ++ name ++ ".fields." ++
        (Tree.node .field children).nameOrEmpty)).length + 2 ≤ (steps r.1).length := hdeep.2
    rw [steps_field c hdotless hv, hsteps] at hlong
    simp at hlong
  · exact ⟨s', hinside s' hs', hsame⟩

/-- **A record for the type of a field comes from a field**, of a declaration of that name or of
one of its name inside it. -/
theorem field_of_record (hc : c ∈ Collection.withFields)
    (hsteps : steps r.1 = [c.key, name, "fields", field, "type"]) (t : Tree) :
    ∀ {inside : Option Collection} {parent : Option Tree}, ∀ s ∈ sitesAfter inside parent t,
      s ∈ sitesAfter none none (parse source).tree → s.collection = c → s.name = name →
      s.Recorded ⟨naming, source.toList⟩ r →
      ∃ s' ∈ s :: s.inner, s'.collection = c ∧ s'.name = name ∧ ∃ v ∈ s'.fields,
        v.nameOrEmpty = field ∧
          r.2 = BuildInput.locate ⟨naming, source.toList⟩ (v.child? .fieldType) := by
  induction t using Tree.induct with
  | leaf => exact fun _ hs => nomatch hs
  | node kind children ih =>
      intro inside parent s hs h hcollection hname hrecorded
      rw [sitesAfter, List.mem_append] at hs
      rcases hs with hs | hs
      · rw [sitesAfterAll_eq] at hs
        obtain ⟨u, hu, hs⟩ := List.mem_flatMap.mp hs
        exact ih u hu s hs h hcollection hname hrecorded
      obtain ⟨c', hc', rfl⟩ := List.mem_map.mp hs
      obtain rfl : c' = c := hcollection
      obtain ⟨within, hshaped⟩ := (proper_of_mem (shaped_parse source) h).shaped
      have hdotless : Dotless name :=
        hname ▸ site_dotless (shaped_parse source) (Tree.plain_parse source) h
      obtain ⟨children', home, o, hstands, hr⟩ := hrecorded
      rw [hname] at hstands
      rcases hr with ⟨hr, hown⟩ | hr
      · have hshort := short_of_declaration hc hdotless (Option.mem_toList.mp hc') hstands hr hown
        rw [hsteps] at hshort
        exact absurd hshort (by simp)
      · obtain rfl : children = children' := (Tree.node.inj hstands.node).2
        rw [recordsOf_members _ _ hshaped (slot_of_site hc h rfl) (by decide), hstands.path] at hr
        obtain ⟨w, hw, hr⟩ := List.mem_flatMap.mp hr
        rcases record_of_field hc h rfl hname hsteps hw hr with hown | ⟨s', hs', hsame, hname', hr'⟩
        · exact ⟨_, List.mem_cons_self .., rfl, hname, w, hw, hown⟩
        · -- The declaration is inside this one, and so is what is found in it.
          have hinner := blocks_subset hc h rfl hw hs'
          have hchild := hinner
          rw [Direct.Site.inner, sitesAfterAll_eq] at hchild
          obtain ⟨u, hu, hs'⟩ := List.mem_flatMap.mp hchild
          obtain ⟨s'', hs'', hfound⟩ :=
            ih u hu s' hs' (inner_subset _ _ h hinner) hsame hname' hr'
          refine ⟨s'', List.mem_cons_of_mem _ ?_, hfound⟩
          rcases List.mem_cons.mp hs'' with rfl | hs''
          · exact hinner
          · exact inner_subset_all hinner hs''

/-- Such a record that comes from a declaration inside a field comes from a field of a
declaration of that name inside it. -/
theorem field_in_block (hc : c ∈ Collection.withFields)
    (h : s ∈ sitesAfter none none (parse source).tree) (hcollection : s.collection = c) {w : Tree}
    (hw : w ∈ s.fields) (hsteps : steps r.1 = [c.key, name, "fields", field, "type"]) {s' : Site}
    (hs' : s' ∈ blocks c w) (hcollection' : s'.collection = c) (hname' : s'.name = name)
    (hr : s'.Recorded ⟨naming, source.toList⟩ r) :
    ∃ s'' ∈ blocks c w, s'' ∈ sitesAfter none none (parse source).tree ∧ s''.collection = c ∧
      s''.name = name ∧ ∃ v ∈ s''.fields, v.nameOrEmpty = field ∧
        r.2 = BuildInput.locate ⟨naming, source.toList⟩ (v.child? .fieldType) := by
  have hwhole : ∀ s'' ∈ blocks c w, s'' ∈ sitesAfter none none (parse source).tree :=
    fun s'' hs'' => inner_subset _ s h (blocks_subset hc h hcollection hw hs'')
  obtain ⟨s'', hs'', hfound⟩ :=
    field_of_record hc hsteps _ s' (hwhole s' hs') (hwhole s' hs') hcollection' hname' hr
  have hblock : s'' ∈ blocks c w := by
    rcases List.mem_cons.mp hs'' with rfl | hs''
    · exact hs'
    · exact inner_subset_all hs' hs''
  exact ⟨s'', hblock, hwhole s'' hblock, hfound⟩

/-- A field records the span of its type, and there the type stands. -/
theorem quoted_type (naming : Naming) (hnone : (parse source).complaints = [])
    (h : s ∈ sitesAfter none none (parse source).tree) {v : Tree} (hv : v ∈ s.fields) :
    ∃ type span, (Build.fieldTypeOf v).1 = some type ∧
      BuildInput.locate ⟨naming, source.toList⟩ (v.child? .fieldType) = some span ∧
      Quoted source span.range type := by
  obtain ⟨hnode, -, hpiece, -⟩ := dotless_member h hv
  obtain ⟨children, rfl⟩ := Tree.exists_node (beq_iff_eq.mp hnode)
  obtain ⟨part, type, hpart, htype, hbears⟩ := bears_type hnone hpiece
  obtain ⟨token, htoken⟩ := hbears.word
  obtain ⟨range, hrange⟩ := Tree.range?_of_mem htoken
  refine ⟨type, Source.span source.toList range, htype, ?_, hbears.quoted range hrange⟩
  rw [BuildInput.locate, hpart, Option.bind_some, hrange]
  rfl

/-- A field of a declaration records the span of its type. -/
theorem type_recorded (input : BuildInput) (h : s ∈ sitesAfter none none (parse source).tree)
    {v : Tree} (hv : v ∈ s.fields) :
    (c.key ++ "." ++ name ++ ".fields." ++ v.nameOrEmpty ++ ".type",
        input.locate (v.child? .fieldType)) ∈
      recordsOf (changes input (some ⟨c.key ++ "." ++ name, c⟩) none v) := by
  obtain ⟨hnode, -⟩ := dotless_member h hv
  obtain ⟨parts, rfl⟩ := Tree.exists_node (beq_iff_eq.mp hnode)
  rw [recordsOf_opening rfl]
  refine List.mem_append_left _ (List.mem_append_right _ ?_)
  simp [Home.scope]

/-- The path of the type of a field. -/
theorem type_path (c : Collection) (name field : String) :
    ".".intercalate [c.key, name, "fields", field, "type"] =
      c.key ++ "." ++ name ++ ".fields." ++ field ++ ".type" := by
  apply String.toList_inj.mp
  simp [String.intercalate_cons_cons]

/-- Of the last field of a name and those behind it one records the span that the path of its
type leads to. -/
theorem record_behind (naming : Naming) (hnone : (parse source).complaints = []) {u : Tree}
    {back : List Tree} (h : LastField (parse source).tree c name s u back) {path : String}
    (hpath : c.key ++ "." ++ name ++ ".fields." ++ u.nameOrEmpty ++ ".type" = path)
    (hunder : Under [c.key, name] path) :
    ∃ span, (Direct.model naming source).location? path = some span ∧
      ∃ w ∈ u :: back, (path, some span) ∈ recordsOf
        (changes ⟨naming, source.toList⟩ (some ⟨c.key ++ "." ++ name, c⟩) none w) := by
  have hu := h.mem_fields u (List.mem_cons_self ..)
  obtain ⟨hc, hkept, ⟨front, hfields⟩, -⟩ := h
  have hsite := kept?_mem hkept
  have hlocated : c ∈ Collection.located := by
    revert hc
    cases c <;> decide
  obtain ⟨before, children, home, o, after, hstands, hrecords, hafter⟩ :=
    keptIn_model naming hlocated hkept
  obtain ⟨within, hshaped⟩ := shaped_kept hkept
  have hslot := slot_of_site hc hsite (kept?_eq_some hkept).1
  have hinside := recordsOf_members ⟨naming, source.toList⟩ ⟨c.key ++ "." ++ name, c⟩
    (hstands.node ▸ hshaped) (hstands.node ▸ hslot) (by decide)
  rw [← hstands.node] at hinside
  change _ = s.fields.flatMap _ at hinside
  rw [hfields, List.flatMap_append] at hinside
  -- The field itself records its type.
  obtain ⟨_, own, -, hown, -⟩ := quoted_type naming hnone hsite hu
  have hself : (path, some own) ∈ recordsOf
      (changes ⟨naming, source.toList⟩ (some ⟨c.key ++ "." ++ name, c⟩) none u) := by
    rw [← hpath, ← hown]
    exact type_recorded _ hsite hu
  have hmem : (path, some own) ∈ (u :: back).flatMap fun w => recordsOf
      (changes ⟨naming, source.toList⟩ (some ⟨c.key ++ "." ++ name, c⟩) none w) :=
    List.mem_flatMap.mpr ⟨u, List.mem_cons_self .., hself⟩
  obtain ⟨span, hspan⟩ := Option.ne_none_iff_exists'.mp (Records.span?_ne_none hmem)
  refine ⟨span, ?_, List.mem_flatMap.mp (Records.mem_of_span? hspan)⟩
  rw [location?_model, hrecords, hstands.path, hinside,
    Records.span?_of_front fun r hr heq => hafter r hr (heq ▸ hunder)]
  exact Records.span?_of_back (Records.span?_of_back (Records.span?_of_back hspan))

/-- **The path of the type of a field leads to a type**: to that of the last field of the name,
unless the name is declared again. -/
theorem location?_type (naming : Naming) (hnone : (parse source).complaints = []) {u : Tree}
    {back : List Tree} (h : LastField (parse source).tree c name s u back) {type : String}
    (htype : (Build.fieldTypeOf u).1 = some type) :
    ∃ span, (Direct.model naming source).location?
        (".".intercalate [c.key, name, "fields", u.nameOrEmpty, "type"]) = some span ∧
      (Quoted source span.range type ∨ Redeclared (parse source).tree
        (".".intercalate [c.key, name, "fields", u.nameOrEmpty, "type"])) := by
  have hc := h.fielded
  obtain ⟨hcollection, hname, -⟩ := kept?_eq_some h.kept
  have hsite := kept?_mem h.kept
  have hback := h.mem_fields
  obtain ⟨-, hfield, -⟩ := dotless_member hsite (hback u (List.mem_cons_self ..))
  generalize hpath : ".".intercalate [c.key, name, "fields", u.nameOrEmpty, "type"] = path
  have hparts : c.key ++ "." ++ name ++ ".fields." ++ u.nameOrEmpty ++ ".type" = path :=
    (type_path c name u.nameOrEmpty).symm.trans hpath
  have hsteps : steps path = [c.key, name, "fields", u.nameOrEmpty, "type"] := by
    rw [← hparts, Path.steps_dot ".type" "type" (by simp) rfl (by decide),
      steps_field c (dotless_kept h.kept) hfield]
    rfl
  obtain ⟨span, hlocation, w, hw, hr⟩ := record_behind naming hnone h hparts (under_of_steps hsteps)
  refine ⟨span, hlocation, ?_⟩
  rcases record_of_field hc hsite hcollection hname hsteps (hback w hw) hr with
    ⟨hsame, hspan⟩ | ⟨s', hs', hcollection', hname', hrecorded⟩
  · -- It is that of the field itself, as those behind have other names.
    obtain rfl : w = u := by
      rcases List.mem_cons.mp hw with rfl | hw
      · rfl
      · exact absurd hsame (h.last w hw)
    obtain ⟨type', span', htype', hspan', hquoted⟩ := quoted_type naming hnone hsite (hback w hw)
    obtain rfl := Option.some.inj (hspan.trans hspan')
    obtain rfl := Option.some.inj (htype.symm.trans htype')
    exact .inl hquoted
  · obtain ⟨s'', hs'', hsite'', hcollection'', hname'', v, hv, hsame, hspan⟩ :=
      field_in_block hc hsite hcollection (hback w hw) hsteps hs' hcollection' hname' hrecorded
    obtain ⟨type', span', htype', hspan', hquoted⟩ := quoted_type naming hnone hsite'' hv
    obtain rfl := Option.some.inj (hspan.trans hspan')
    by_cases hother : (Build.fieldTypeOf v).1 = (Build.fieldTypeOf u).1
    · left
      rw [htype', htype] at hother
      exact Option.some.inj hother ▸ hquoted
    · exact .inr ⟨c, name, s, u, back, h, hpath.symm, w, hw, s'', hs'', hcollection'', hname'', v,
        hv, hsame, hother⟩

end

end DomainModel
