/-
Relationships are recorded as they are kept.

A relationship is put into the group of its type at once, and of those that share a name the
last stays.  Nothing else is recorded below the collection, and a relationship records below
its own type and name.  So the ends of the one that stays are where their paths lead.
-/
import DomainModel.Proofs.Build.Quotes

namespace DomainModel

open Direct
open DomainModel.Path (Under steps)

/-! ### Groups -/

/-- Groups of relationships, in which no name occurs twice. -/
structure Grouped (groups : Members) : Prop where
  types : (Dict.keys groups).Nodup
  groups : ∀ e ∈ groups, ∃ group, e.2 = .map group ∧ (Dict.keys group).Nodup

/-- The relationship of a type and a name, if there is one. -/
def Members.relationship? (groups : Members) (type name : String) : Option Value :=
  ((Dict.get? groups type).bind Value.map?).bind (Dict.get? · name)

section
variable {groups : Members}

theorem grouped_relate (h : Grouped groups) (r : Build.Relation) : Grouped (groups.relate r) := by
  have hreserved : Grouped (Dict.reserve r.type .emptyMap groups) := by
    refine ⟨?_, fun e he => ?_⟩
    · rw [Dict.reserve]
      split
      · exact h.types
      · exact Dict.nodup_keys_insert h.types _ _
    · rcases Dict.mem_reserve he with rfl | hmem
      · exact ⟨[], rfl, List.nodup_nil⟩
      · exact h.groups e hmem
  refine ⟨?_, fun e he => ?_⟩
  · rw [Members.relate, Dict.keys_modify]
    exact hreserved.types
  · rcases Dict.mem_modify he with hmem | ⟨v, hmem, rfl⟩
    · exact hreserved.groups e hmem
    · obtain ⟨group, hgroup, hnodup⟩ := hreserved.groups _ hmem
      obtain rfl : v = .map group := hgroup
      exact ⟨_, rfl, Dict.nodup_keys_insert hnodup _ _⟩

/-- A relationship takes the place of the one of its type and name. -/
theorem relationship?_relate (h : Grouped groups) (r : Build.Relation) (type name : String) :
    (groups.relate r).relationship? type name =
      if type = r.type ∧ name = r.name then some (.map r.node)
      else groups.relationship? type name := by
  have hget : Dict.get? (groups.relate r) type = _ := Dict.get?_modify ..
  rw [Members.relationship?, Members.relationship?, hget, Dict.get?_reserve]
  by_cases htype : type = r.type
  · subst htype
    -- In the group of its type it is inserted, and if there was none, into an empty one.
    obtain ⟨group, hgroup, hold⟩ : ∃ group,
        (Dict.get? groups r.type).or (some .emptyMap) = some (.map group) ∧
        ((Dict.get? groups r.type).bind Value.map?).bind (Dict.get? · name) =
          Dict.get? group name := by
      cases hvalue : Dict.get? groups r.type with
      | none => exact ⟨[], rfl, rfl⟩
      | some v =>
          obtain ⟨group, hgroup, -⟩ := h.groups _ (Dict.mem_of_get? hvalue)
          obtain rfl : v = .map group := hgroup
          exact ⟨group, rfl, rfl⟩
    have hinserted := Dict.get?_insert r.name (.map r.node) group name
    simp only [if_true, true_and, hgroup, hold, Option.map_some, Option.bind_some, Value.map?]
    exact hinserted
  · simp [htype]

/-- **Of relationships that share type and name the last stays.** -/
theorem relationship?_foldl (rs : List Build.Relation) (type name : String) :
    ∀ groups : Members, Grouped groups →
      Grouped (rs.foldl Members.relate groups) ∧
      (rs.foldl Members.relate groups).relationship? type name =
        ((rs.reverse.find? fun r => decide (type = r.type ∧ name = r.name)).map
          fun r => Value.map r.node).or (groups.relationship? type name) := by
  induction rs with
  | nil => exact fun _ h => ⟨h, rfl⟩
  | cons r rs ih =>
      intro groups h
      obtain ⟨hgrouped, hlast⟩ := ih _ (grouped_relate h r)
      rw [List.foldl_cons, hlast, relationship?_relate h, List.reverse_cons, List.find?_append]
      refine ⟨hgrouped, ?_⟩
      cases rs.reverse.find? fun r => decide (type = r.type ∧ name = r.name) with
      | some last => simp
      | none =>
          by_cases hsame : type = r.type ∧ name = r.name
          · simp [hsame]
          · simp [hsame]

/-- What is listed among relationships is the last of its type and name. -/
theorem last_of_mem {rs : List Build.Relation} {type name : String} {group : Members}
    {relationship : Value} (htype : (type, .map group) ∈ rs.foldl Members.relate [])
    (hname : (name, relationship) ∈ group) :
    ∃ front r back, rs = front ++ r :: back ∧ r.type = type ∧ r.name = name ∧
      .map r.node = relationship ∧ ∀ other ∈ back, ¬(other.type = type ∧ other.name = name) := by
  obtain ⟨hgrouped, hlast⟩ := relationship?_foldl rs type name [] ⟨List.nodup_nil, nofun⟩
  obtain ⟨group', hgroup, hnodup⟩ := hgrouped.groups _ htype
  obtain rfl := Value.map.inj hgroup
  rw [Members.relationship?, Dict.get?_of_mem hgrouped.types htype] at hlast
  have hfound : Dict.get? group name = _ := hlast
  rw [Dict.get?_of_mem hnodup hname, Members.relationship?, Dict.get?_nil, Option.bind_none,
    Option.bind_none, Option.or_none] at hfound
  obtain ⟨r, hfind, hvalue⟩ := Option.map_eq_some_iff.mp hfound.symm
  obtain ⟨hr, front, back, hsplit, hback⟩ := find?_reverse_eq_some hfind
  obtain ⟨rfl, rfl⟩ := of_decide_eq_true hr
  refine ⟨front, r, back, hsplit, rfl, rfl, hvalue, fun other hother hsame => ?_⟩
  exact hback other hother (decide_eq_true ⟨hsame.1.symm, hsame.2.symm⟩)

end

/-! ### Ends -/

theorem Dotless.append {a b : String} (ha : Dotless a) (hb : Dotless b) : Dotless (a ++ b) := by
  intro hdot
  rw [String.toList_append, List.mem_append] at hdot
  exact hdot.elim ha hb

section
variable {input : BuildInput} {group : Option Tree} {t : Tree}

theorem dotless_endText {within : NodeKind} (hplain : t.Plain) (hshaped : Shaped within t)
    (side : Build.Side) : Dotless (Build.endText (Build.endOn t side)) := by
  cases hend : Build.endOn t side with
  | none => decide
  | some e =>
      obtain ⟨hchild, -⟩ := Option.filter_eq_some_iff.mp hend
      have hmem := (Tree.child?_spec hchild).1
      obtain ⟨within, heshaped⟩ := hshaped.child hmem
      have heplain := hplain.part (Tree.part_of_mem hmem)
      have hname := heplain.nameOrEmpty heshaped
      rw [Build.endText]
      cases hinjected : e.injectedName? with
      | none => exact hname
      | some field =>
          obtain ⟨inner, hinner, hfield⟩ := Option.bind_eq_some_iff.mp hinjected
          have hinnerMem := (Tree.child?_spec hinner).1
          obtain ⟨within, hinnerShaped⟩ := heshaped.child hinnerMem
          have hdotless := (heplain.part (Tree.part_of_mem hinnerMem)).nameOrEmpty hinnerShaped
          rw [Tree.nameOrEmpty, hfield] at hdotless
          exact ((hname.append (by decide)).append hdotless).append (by decide)

/-- A side of a relationship is the name of its end. -/
theorem side_eq (side : Build.Side) :
    (Value.map (Build.relation input group t).node).getString? side.lower =
      (Build.endOn t side).map Tree.nameOrEmpty := by
  rw [Build.relation]
  cases side <;> cases Build.endOn t .origin <;> cases Build.endOn t .target <;> rfl

/-- An end records its name for its side, and all else below other keys. -/
theorem mem_endRecords {path : String} (hpath : path ≠ "") {side : Build.Side} {e : Tree}
    {r : String × Option Span} (hr : r ∈ Build.endRecords input path side e) :
    r = (path ++ "." ++ side.lower, input.locate (e.child? .name)) ∨
      ∃ key, (∀ other : Build.Side, key ≠ other.lower) ∧ Under (steps path ++ [key]) r.1 := by
  have hchecks : ∀ other : Build.Side, side.lower ++ "Validations" ≠ other.lower := by
    intro other
    cases side <;> cases other <;> decide
  have hinjected : ∀ other : Build.Side, "injectedFieldIn" ++ side.upper ≠ other.lower := by
    intro other
    cases side <;> cases other <;> decide
  have hdotless : Dotless (side.lower ++ "Validations") ∧
      Dotless ("injectedFieldIn" ++ side.upper) := by
    cases side <;> decide
  have hbase : path ++ "." ++ side.lower ++ "Validations" =
      path ++ "." ++ (side.lower ++ "Validations") := by
    simp [String.append_assoc]
  have hsteps := Path.steps_below hpath hdotless.1
  rw [Build.endRecords, List.mem_append] at hr
  rcases hr with hr | hr
  · obtain ⟨⟨u, name, v⟩, -, rfl⟩ := List.mem_map.mp hr
    have hne : path ++ "." ++ (side.lower ++ "Validations") ≠ "" := by simp
    refine .inr ⟨_, hchecks, ?_⟩
    show Under _ (path ++ "." ++ side.lower ++ "Validations" ++ "." ++ name)
    rw [hbase, ← hsteps, Under, Path.steps_append hne name]
    exact List.prefix_append ..
  · simp only [List.mem_cons, List.not_mem_nil, or_false] at hr
    rcases hr with rfl | rfl | rfl
    · have hplace : steps (path ++ "." ++ side.lower ++ "Validations") =
          steps path ++ [side.lower ++ "Validations"] := by rw [hbase, hsteps]
      exact .inr ⟨_, hchecks, hplace ▸ List.prefix_refl _⟩
    · exact .inl rfl
    · have hjoin : path ++ ".injectedFieldIn" ++ side.upper =
          path ++ "." ++ ("injectedFieldIn" ++ side.upper) := by
        apply String.toList_inj.mp
        simp
      have hplace : steps (path ++ ".injectedFieldIn" ++ side.upper) =
          steps path ++ ["injectedFieldIn" ++ side.upper] := by
        rw [hjoin, Path.steps_below hpath hdotless.2]
      exact .inr ⟨_, hinjected, hplace ▸ List.prefix_refl _⟩

/-- **A relationship records for each side the name of the end there**, and nothing else. -/
theorem span?_side {e : Tree} {side : Build.Side} (hend : Build.endOn t side = some e) {span : Span}
    (hspan : input.locate (e.child? .name) = some span) :
    Records.span? (Build.relation input group t).records
      ((Build.relation input group t).path ++ "." ++ side.lower) = some span := by
  have hpath : (Build.relation input group t).path ≠ "" := (Build.relation input group t).path_ne
  have hdotless : ∀ side : Build.Side, Dotless side.lower := by
    intro side
    cases side <;> decide
  have hrecords : (Build.relation input group t).records =
      [((Build.relation input group t).path, input.locate (some t))] ++
      ((Build.endOn t .origin).map (Build.endRecords input
        (Build.relation input group t).path .origin)).getD [] ++
      ((Build.endOn t .target).map (Build.endRecords input
        (Build.relation input group t).path .target)).getD [] := rfl
  generalize (Build.relation input group t).path = path at *
  rw [hrecords]
  have hends : ∀ {other : Build.Side} {r : String × Option Span},
      r ∈ ((Build.endOn t other).map (Build.endRecords input path other)).getD [] →
      r.1 = path ++ "." ++ side.lower → r.2 = some span := by
    intro other r hr heq
    cases hother : Build.endOn t other with
    | none =>
        rw [hother] at hr
        exact absurd hr List.not_mem_nil
    | some e' =>
        rw [hother] at hr
        have hsteps := congrArg steps heq
        rw [Path.steps_below hpath (hdotless side)] at hsteps
        rcases mem_endRecords hpath hr with rfl | ⟨key, hkey, hunder⟩
        · rw [Path.steps_below hpath (hdotless other)] at hsteps
          have hsame : other = side := by
            revert hsteps
            cases other <;> cases side <;> simp [Build.Side.lower]
          subst hsame
          obtain rfl := Option.some.inj (hother.symm.trans hend)
          exact hspan
        · rw [Under, hsteps, List.prefix_append_right_inj] at hunder
          simp at hunder
          exact absurd hunder (hkey side)
  refine Records.span?_of_mem ?_ fun r hr heq => ?_
  · have hmem : (path ++ "." ++ side.lower, some span) ∈
        ((Build.endOn t side).map (Build.endRecords input path side)).getD [] := by
      rw [hend, ← hspan, Option.map_some, Option.getD_some, Build.endRecords]
      simp
    cases side with
    | origin => exact List.mem_append_left _ (List.mem_append_right _ hmem)
    | target => exact List.mem_append_right _ hmem
  · rw [List.mem_append, List.mem_append] at hr
    rcases hr with (hr | hr) | hr
    · obtain rfl := List.mem_singleton.mp hr
      exfalso
      have hsteps := congrArg steps heq
      rw [Path.steps_below hpath (hdotless side)] at hsteps
      simp at hsteps
    · exact hends hr heq
    · exact hends hr heq

end

/-! ### Nothing else is recorded among relationships -/

/-- A construct that is no relationship and has no path among them. -/
structure Direct.Home.Outside (home : Home) : Prop where
  collection : home.collection ≠ .relationships
  away : home.Away ["relationships"]

theorem outside_opening {input : BuildInput} {home : Option Home} {parent : Option Tree}
    {kind : NodeKind} {t : Tree} {o : Opening} (h : opening input home parent kind t = some o)
    (hhome : ∀ owner ∈ home, owner.Outside) :
    Home.Outside ⟨o.scope.path, o.scope.place.collection⟩ := by
  have hcollection : o.scope.place.collection ≠ .relationships := by
    have hwithin : home.map (·.collection) ≠ some .relationships := by
      intro hsome
      obtain ⟨owner, howner, hplace⟩ := Option.map_eq_some_iff.mp hsome
      exact (hhome owner howner).collection hplace
    intro heq
    have hplace := (site_of_opening h).1
    rw [heq, Option.or_eq_some_iff] at hplace
    rcases hplace with hown | ⟨-, hplace⟩
    · revert hown
      cases kind <;> first
        | exact hwithin
        | exact nofun
    · exact hwithin hplace
  refine ⟨hcollection, ?_⟩
  rcases path_of_opening h with ⟨-, heq⟩ | ⟨owner, howner, slot, -, heq⟩
  · have hkey := Path.steps_of_key o.scope.place.collection
    have hsteps := Path.steps_append (Collection.key_ne o.scope.place.collection) o.scope.place.name
    rw [← heq, hkey, List.singleton_append] at hsteps
    refine ⟨by rw [heq]; simp, ?_, fun hunder => ?_⟩
    · simp [hsteps]
    · have hplace : ["relationships"] <+: steps o.scope.path := hunder
      rw [hsteps, List.cons_prefix_cons] at hplace
      exact hcollection (Collection.key_inj hplace.1.symm)
  · rw [heq]
    exact (hhome owner howner).away.member _ slot _

theorem not_under_records {input : BuildInput} {home : Option Home} {parent : Option Tree}
    {kind : NodeKind} {t : Tree} {o : Opening} (h : opening input home parent kind t = some o)
    (hhome : ∀ owner ∈ home, owner.Outside) : ∀ r ∈ o.records, ¬Under ["relationships"] r.1 := by
  intro r hr
  have haway := (outside_opening h hhome).away
  rcases below_opening h r hr with hbelow | ⟨-, owner, howner, name, heq⟩
  · exact haway.not_under (hbelow.under haway.ne)
  · have hcheck : r.1 = owner.path ++ "." ++ ("validations" ++ "." ++ name) := by
      rw [heq]
      apply String.toList_inj.mp
      simp
    rw [hcheck]
    exact ((hhome owner howner).away.member owner.collection "validations" name).away

theorem Records.span?_flatMap_congr {α : Type} {f g : α → Records} {path : String} {as : List α}
    (h : ∀ a ∈ as, span? (f a) path = span? (g a) path) :
    span? (as.flatMap f) path = span? (as.flatMap g) path := by
  induction as with
  | nil => rfl
  | cons a as ih =>
      obtain ⟨ha, has⟩ := List.forall_mem_cons.mp h
      rw [List.flatMap_cons, List.flatMap_cons, span?_append, span?_append, ha, ih has]

/-- **Among relationships nothing is recorded but by relationships.** -/
theorem span?_found {input : BuildInput} {path : String} (hpath : Under ["relationships"] path)
    (t : Tree) : ∀ {home : Option Home} {parent : Option Tree}, (∀ owner ∈ home, owner.Outside) →
      Records.span? (recordsOf (changes input home parent t)) path =
        Records.span? ((found (relationsOf input) parent t).flatMap (·.records)) path := by
  induction t using Tree.induct with
  | leaf => exact fun _ => rfl
  | node kind children ih =>
      intro home parent hhome
      have hinside : ∀ {home : Option Home}, (∀ owner ∈ home, owner.Outside) →
          Records.span? (recordsOf (changesOfAll input home (some (.node kind children)) children))
            path = Records.span? ((foundAll (relationsOf input) (some (.node kind children))
              children).flatMap (·.records)) path := by
        intro home hhome
        rw [changesOfAll_eq, recordsOf_flatMap, foundAll_eq, List.flatMap_assoc]
        exact Records.span?_flatMap_congr fun u hu => ih u hu hhome
      rw [found, List.flatMap_append, Records.span?_append]
      cases hopening : opening input home parent kind (.node kind children) with
      | some o =>
          have hfree := Records.span?_of_free fun r hr heq =>
            not_under_records hopening hhome r hr (heq ▸ hpath)
          have hnone : relationsOf input parent kind (.node kind children) = [] := by
            cases kind <;> first
              | rfl
              | exact absurd hopening.symm (Option.some_ne_none o)
          rw [recordsOf_opening hopening, Records.span?_append, hfree, hnone,
            hinside fun owner howner => Option.mem_some.mp howner ▸ outside_opening hopening hhome]
          rfl
      | none =>
          have hsingle : recordsOf (single input parent kind (.node kind children)) =
              (relationsOf input parent kind (.node kind children)).flatMap (·.records) := by
            cases kind <;> first
              | rfl
              | simp [single, relationsOf, recordsOf]
          rw [recordsOf_single hopening, Records.span?_append, hinside hhome, hsingle]

/-! ### Where the sides of a relationship stand -/

/-- Where a relationship of a text comes from. -/
theorem relation_found {naming : Naming} {source : String} {r : Build.Relation}
    (hr : r ∈ found (relationsOf ⟨naming, source.toList⟩) none (parse source).tree) :
    ∃ group t, r = Build.relation ⟨naming, source.toList⟩ group t ∧ Piece source t ∧
      (∃ within, Shaped within t) ∧ steps r.path = ["relationships", r.type, r.name] := by
  obtain ⟨owner, kind, t, hpick, -, hpart, hshaped, howner⟩ :=
    mem_found _ (shaped_parse source) r hr
  cases kind
  case relationship =>
    obtain rfl := List.mem_singleton.mp hpick
    refine ⟨_, t, rfl, hpart, hshaped, ?_⟩
    obtain ⟨within, hshaped⟩ := hshaped
    have hplain : (parse source).tree.Plain := Tree.plain_parse source
    generalize hrelation : Build.relation ⟨naming, source.toList⟩
      (owner.filter (Tree.isNode .relationshipGroup)) t = relation
    have htype : Dotless relation.type := by
      rw [← hrelation]
      cases hgroup : owner.filter (Tree.isNode .relationshipGroup) with
      | none => exact (by decide : Dotless "")
      | some v =>
          obtain ⟨hv, -⟩ := Option.filter_eq_some_iff.mp hgroup
          rcases howner with rfl | ⟨v', hv', hpart', within', hshaped'⟩
          · exact nomatch hv
          · obtain rfl := Option.some.inj (hv.symm.trans hv')
            exact (hplain.part hpart').nameOrEmpty hshaped'
    have hname : Dotless relation.name := by
      have hends := dotless_endText (hplain.part hpart) hshaped
      have hline : Dotless "_" := by decide
      rw [← hrelation] at htype ⊢
      exact (((htype.append hline).append (hends .origin)).append hline).append (hends .target)
    have hpath : relation.path =
        Collection.relationships.key ++ "." ++ relation.type ++ "." ++ relation.name := by
      rw [relation.path_eq]
      simp only [String.append_assoc]
    rw [hpath, Path.steps_below (by simp) hname, Path.steps_key _ htype]
    rfl
  all_goals exact absurd hpick List.not_mem_nil

/-- **The side of a relationship that is kept stands where its path leads.** -/
theorem quotes_side {naming : Naming} {source type name entity : String} {group : Members}
    {relationship : Value} (side : Build.Side)
    (htype : (type, .map group) ∈ (Direct.model naming source).document.relationships)
    (hname : (name, relationship) ∈ group)
    (hentity : relationship.getString? side.lower = some entity) :
    (Direct.model naming source).Quotes source
      (".".intercalate ["relationships", type, name, side.lower]) entity := by
  have hdocument : (Direct.model naming source).document.relationships =
      (found (relationsOf ⟨naming, source.toList⟩) none (parse source).tree).foldl
        Members.relate [] :=
    congrArg Document.relationships (draft_document ⟨naming, source.toList⟩ (shaped_parse source))
  rw [hdocument] at htype
  obtain ⟨front, r, back, hsplit, rfl, rfl, rfl, hlast⟩ := last_of_mem htype hname
  have hfound : r ∈ found (relationsOf ⟨naming, source.toList⟩) none (parse source).tree := by
    rw [hsplit]
    simp
  obtain ⟨opener, t, hr, hpiece, ⟨within, hshaped⟩, hsteps⟩ := relation_found hfound
  rw [hr, side_eq, Option.map_eq_some_iff] at hentity
  obtain ⟨e, hend, rfl⟩ := hentity
  obtain ⟨hchild, hnamed⟩ := Option.filter_eq_some_iff.mp hend
  obtain ⟨label, hlabel⟩ := Option.isSome_iff_exists.mp hnamed
  have hmem := (Tree.child?_spec hchild).1
  obtain ⟨_, heshaped⟩ := hshaped.child hmem
  obtain ⟨word, hword, hbears⟩ := bears_child (hpiece.child hmem) heshaped (by decide) hlabel
  have hvalue : e.nameOrEmpty = word := by
    rw [Tree.nameOrEmpty, Tree.name?, hword]
    rfl
  have hpath : ".".intercalate ["relationships", r.type, r.name, side.lower] =
      r.path ++ "." ++ side.lower := by
    apply String.toList_inj.mp
    simp [String.intercalate_cons_cons, r.path_eq, Collection.key]
  have hlower : Dotless side.lower := by
    cases side <;> decide
  have hbelow := Path.steps_below r.path_ne hlower
  rw [hsteps] at hbelow
  have hunder : Under ["relationships"] (r.path ++ "." ++ side.lower) := by
    rw [Under, hbelow]
    exact List.prefix_append ["relationships"] _
  rw [hpath, hvalue]
  refine hbears.quotes naming fun span hspan => ?_
  have houtside : ∀ owner ∈ (none : Option Home), owner.Outside := fun owner h =>
    absurd h (Option.not_mem_none owner)
  rw [location?_model, span?_found hunder _ houtside, hsplit, List.flatMap_append,
    List.flatMap_cons]
  refine Records.span?_of_back ?_
  rw [Records.span?_of_front fun record hrecord heq => ?_]
  · rw [hr]
    exact span?_side hend (hlabel ▸ hspan)
  · -- What a relationship behind it records lies below another type or another name.
    obtain ⟨other, hother, hrecord⟩ := List.mem_flatMap.mp hrecord
    have hlisted :
        other ∈ found (relationsOf ⟨naming, source.toList⟩) none (parse source).tree := by
      rw [hsplit]
      simp [hother]
    obtain ⟨opener', t', hrelation, -, -, hsteps'⟩ := relation_found hlisted
    have hthere : Below other.path record := by
      rw [hrelation] at hrecord ⊢
      exact below_relation record hrecord
    have hplace : Under (steps other.path) (r.path ++ "." ++ side.lower) :=
      heq ▸ hthere.under other.path_ne
    rw [Under, hsteps', hbelow] at hplace
    simp at hplace
    exact hlast other hother hplace

end DomainModel
