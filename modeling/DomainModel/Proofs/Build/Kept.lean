/-
What a kept construct records is what its paths lead to.

Under a name a document keeps the construct that was completed last (`kept?`), while of the
spans recorded for its paths those of the construct that was entered last stay.  The two are
one unless a construct contains another one of its own name: then nothing is recorded below
the name behind what stands in the kept one (`kept_changes`), and what stands in it records
deeper.  So a path of the construct leads to what the construct itself recorded
(`location?_kept`), and a path of one of its members to what the last member of that name
recorded (`location?_member`).
-/
import DomainModel.Proofs.Build.Records

namespace DomainModel

open Direct
open DomainModel.Path (Under steps)

/-! ### The construct that is kept -/

/-- The construct whose node a document keeps under a name: the one completed last. -/
def Direct.kept? (c : Collection) (name : String) (t : Tree) : Option Site :=
  (sitesAfter none none t).reverse.find? fun s => decide (s.collection = c ∧ s.name = name)

/-- The constructs inside a stored one. -/
def Direct.Site.inner (s : Site) : List Site :=
  sitesAfterAll (some s.collection) (some s.node) s.node.children

/-- Does a construct contain one of its own name in its own collection? -/
def Direct.Site.Recurs (s : Site) : Prop :=
  ∃ s' ∈ s.inner, s'.collection = s.collection ∧ s'.name = s.name

instance (s : Site) : Decidable s.Recurs := inferInstanceAs (Decidable (∃ s' ∈ s.inner, _))

/-- What is found from the back of a row has no other one behind it. -/
theorem find?_reverse_eq_some {α : Type} {p : α → Bool} {as : List α} {a : α}
    (h : as.reverse.find? p = some a) :
    p a = true ∧ ∃ front back, as = front ++ a :: back ∧ ∀ b ∈ back, ¬p b = true := by
  obtain ⟨ha, back, front, hsplit, hback⟩ := List.find?_eq_some_iff_append.mp h
  refine ⟨ha, front.reverse, back.reverse, ?_, fun b hb => ?_⟩
  · rw [List.reverse_eq_iff.mp hsplit]
    simp
  · simpa using hback b (List.mem_reverse.mp hb)

theorem kept?_eq_some {c : Collection} {name : String} {t : Tree} {s : Site}
    (h : kept? c name t = some s) : s.collection = c ∧ s.name = name ∧
      ∃ front back, sitesAfter none none t = front ++ s :: back ∧
        ∀ s' ∈ back, ¬(s'.collection = c ∧ s'.name = name) := by
  obtain ⟨hs, front, back, hsplit, hback⟩ := find?_reverse_eq_some h
  obtain ⟨hcollection, hname⟩ := of_decide_eq_true hs
  exact ⟨hcollection, hname, front, back, hsplit, fun s' hs' hboth =>
    hback s' hs' (decide_eq_true hboth)⟩

/-- The last element of a kind among what is found in a row stands in one of the row. -/
theorem flatMap_split {α β : Type} {f : α → List β} {as : List α} {front back : List β} {b : β}
    (h : as.flatMap f = front ++ b :: back) : ∃ before a after front' back',
      as = before ++ a :: after ∧ f a = front' ++ b :: back' ∧
        back = back' ++ after.flatMap f := by
  induction as generalizing front with
  | nil => exact absurd h.symm (List.append_ne_nil_of_right_ne_nil _ (List.cons_ne_nil _ _))
  | cons a as ih =>
      rw [List.flatMap_cons, List.append_eq_append_iff] at h
      rcases h with ⟨mid, -, hrest⟩ | ⟨mid, ha, hback⟩
      · obtain ⟨before, a', after, front', back', rfl, ha', hback⟩ := ih hrest
        exact ⟨a :: before, a', after, front', back', rfl, ha', hback⟩
      · cases mid with
        | nil =>
            obtain ⟨before, a', after, front', back', rfl, ha', hback⟩ := @ih [] hback.symm
            exact ⟨a :: before, a', after, front', back', rfl, ha', hback⟩
        | cons b' mid =>
            obtain ⟨rfl, rfl⟩ := List.cons.inj hback
            exact ⟨[], a, as, front, mid, rfl, ha, rfl⟩

/-- What is at home there has nothing to do with a place. -/
structure Direct.Home.Away (home : Home) (place : List String) : Prop where
  ne : home.path ≠ ""
  deep : place.length ≤ (steps home.path).length
  away : ¬Under place home.path

theorem Direct.Home.Away.not_under {home : Home} {place : List String} (h : home.Away place)
    {path : String} (hpath : Under (steps home.path) path) : ¬Under place path :=
  fun hplace => h.away (hplace.prefix_of_le hpath h.deep)

/-- What stands in a construct is as far away as the construct. -/
theorem Direct.Home.Away.member {home : Home} {place : List String} (h : home.Away place)
    (c : Collection) (slot name : String) :
    Home.Away ⟨home.path ++ "." ++ (slot ++ "." ++ name), c⟩ place := by
  obtain ⟨hunder, hlength⟩ := Path.two_steps h.ne slot name
  exact ⟨by simp, Nat.le_trans h.deep (Nat.le_of_add_right_le hlength), h.not_under hunder⟩

/-- Where a construct that is not of a name stands away from it, so does what stands in it. -/
theorem away_of_opening {input : BuildInput} {c : Collection} {name : String}
    {home : Option Home} {parent : Option Tree} {kind : NodeKind} {t : Tree} {o : Opening}
    (h : opening input home parent kind t = some o)
    (hhome : ∀ owner ∈ home, owner.Away [c.key, name])
    (hsite : ∀ s ∈ siteOf (home.map (·.collection)) parent kind t,
      Dotless s.name ∧ ¬(s.collection = c ∧ s.name = name)) :
    Home.Away ⟨o.scope.path, o.scope.place.collection⟩ [c.key, name] := by
  rcases path_of_opening h with ⟨hslot, heq⟩ | ⟨owner, howner, slot, -, heq⟩
  · obtain ⟨-, ⟨hsome, -⟩ | ⟨-, s, hs, hcoll, hname, -⟩⟩ := site_of_opening h
    · exact absurd hslot hsome
    · obtain ⟨hdotless, hother⟩ := hsite s (hs ▸ List.mem_singleton_self s)
      have hsteps : steps o.scope.path = [s.collection.key, s.name] := by
        rw [heq, ← hcoll, ← hname, Path.steps_key _ hdotless]
      refine ⟨by rw [heq]; simp, Nat.le_of_eq (congrArg List.length hsteps).symm, fun hunder => ?_⟩
      have hplace : [c.key, name] <+: [s.collection.key, s.name] := hsteps ▸ (show
        [c.key, name] <+: steps o.scope.path from hunder)
      obtain ⟨hkey, hrest⟩ := List.cons.inj (hplace.eq_of_length rfl)
      exact hother ⟨Collection.key_inj hkey.symm, (List.cons.inj hrest).1.symm⟩
  · rw [heq]
    exact (hhome owner howner).member _ slot _

theorem standsAt_of_site {input : BuildInput} {c : Collection} {name : String}
    (hc : c ∉ [Collection.constants, .config, .policies]) {home : Option Home}
    {parent : Option Tree} {kind : NodeKind} {children : List Tree} {s : Site}
    (hparent : home.isSome → parent.isSome)
    (hsite : siteOf (home.map (·.collection)) parent kind (.node kind children) = [s])
    (hcollection : s.collection = c) (hname : s.name = name) :
    ∃ o, StandsAt input c name s children home o ∧
      DomainModel.Direct.opening input home parent kind (.node kind children) = some o ∧
        s.node = .node kind children := by
  have hcoll : collectionOf (home.map (·.collection)) kind = some s.collection := by
    have hmem : s ∈ siteOf (home.map (·.collection)) parent kind (.node kind children) :=
      hsite ▸ List.mem_singleton_self s
    obtain ⟨c', hc', rfl⟩ := List.mem_map.mp hmem
    exact Option.mem_toList.mp hc'
  cases hopening : DomainModel.Direct.opening input home parent kind (.node kind children) with
  | none =>
      rcases site_of_single hparent hopening with ⟨hleaf, -⟩ | ⟨hnone, -⟩
      · exfalso
        rw [hcollection] at hcoll
        clear hsite hopening
        cases kind <;> first
          | exact absurd hleaf (by decide)
          | exact absurd hcoll.symm (Option.some_ne_none _)
          | obtain rfl := Option.some.inj hcoll
            exact absurd hc (by decide)
      · exact absurd (hnone.symm.trans hcoll).symm (Option.some_ne_none _)
  | some o =>
      obtain ⟨-, ⟨-, hnone⟩ | ⟨hslot, -⟩⟩ := site_of_opening hopening
      · exact absurd (hnone.symm.trans hcoll).symm (Option.some_ne_none _)
      · obtain ⟨s', hs', hstands, hnode⟩ := standsAt_of_opening hopening hslot
        obtain rfl := List.singleton_inj.mp (hsite.symm.trans hs')
        exact ⟨o, hcollection ▸ hname ▸ hstands, rfl, hnode⟩

/-- Among some records are those of a construct that is stored under a name, and behind them
there are none below the name. -/
def KeptIn (input : BuildInput) (c : Collection) (name : String) (s : Site) (rs : Records) : Prop :=
  ∃ before children home o after, StandsAt input c name s children home o ∧
    rs = before ++ (o.records ++
      recordsOf (changesOfAll input (some ⟨o.scope.path, c⟩) (some s.node) children)) ++ after ∧
    ∀ r ∈ after, ¬Under [c.key, name] r.1

theorem KeptIn.within {input : BuildInput} {c : Collection} {name : String} {s : Site}
    {rs : Records} (h : KeptIn input c name s rs) (front : Records) {back : Records}
    (hback : ∀ r ∈ back, ¬Under [c.key, name] r.1) :
    KeptIn input c name s (front ++ rs ++ back) := by
  obtain ⟨before, children, home, o, after, hstands, rfl, hafter⟩ := h
  refine ⟨front ++ before, children, home, o, after ++ back, hstands, ?_,
    List.forall_mem_append.mpr ⟨hafter, hback⟩⟩
  simp only [List.append_assoc]

theorem split_single {α : Type} {inner here front back : List α} {a : α}
    (h : inner ++ here = front ++ a :: back) (hhere : here.length ≤ 1) :
    here = [a] ∧ back = [] ∨ ∃ mid, inner = front ++ a :: mid ∧ back = mid ++ here := by
  rcases List.append_eq_append_iff.mp h with ⟨mid, -, rfl⟩ | ⟨mid, hinner, hback⟩
  · cases mid <;> simp_all
  · cases mid with
    | nil =>
        obtain rfl : a :: back = here := hback
        exact .inl ⟨by simpa using hhere, by simpa using hhere⟩
    | cons b mid =>
        obtain ⟨rfl, rfl⟩ := List.cons.inj hback
        exact .inr ⟨mid, hinner, rfl⟩

/-- **What the last construct of a name records stays**: nothing is recorded below the name
behind it. -/
theorem kept_changes {input : BuildInput} {c : Collection} {name : String}
    (hrel : c ≠ .relationships) (hc : c ∉ [Collection.constants, .config, .policies]) (t : Tree) :
    ∀ {within : NodeKind} {home : Option Home} {parent : Option Tree}, Shaped within t →
    (home.isSome → parent.isSome) → (∀ owner ∈ home, owner.Away [c.key, name]) →
    (∀ s ∈ sitesAfter (home.map (·.collection)) parent t, Dotless s.name) →
    ∀ {front s back}, sitesAfter (home.map (·.collection)) parent t = front ++ s :: back →
    s.collection = c → s.name = name → (∀ s' ∈ back, ¬(s'.collection = c ∧ s'.name = name)) →
    KeptIn input c name s (recordsOf (changes input home parent t)) := by
  induction t using Tree.induct with
  | leaf => exact fun _ _ _ _ _ _ _ h => absurd h.symm (List.append_ne_nil_of_right_ne_nil _
      (List.cons_ne_nil _ _))
  | node kind children ih =>
      intro within home parent hshaped hparent hhome hdotless front s back hsplit hcollection hname
        hback
      cases hshaped with
      | node hholds _ _ hparts =>
      rw [sitesAfter] at hsplit hdotless
      obtain ⟨hinnerDotless, hhereDotless⟩ := List.forall_mem_append.mp hdotless
      have hone :
          (siteOf (home.map (·.collection)) parent kind (.node kind children)).length ≤ 1 := by
        rw [siteOf]
        cases collectionOf (home.map (·.collection)) kind <;> simp
      -- If it stands in one of the children, nothing is recorded below the name in those behind.
      have hchildren : ∀ {home' : Option Home}, (∀ owner ∈ home', owner.Away [c.key, name]) →
          (∀ s ∈ sitesAfterAll (home'.map (·.collection)) (some (.node kind children)) children,
            Dotless s.name) → ∀ {mid}, (∀ s' ∈ mid, ¬(s'.collection = c ∧ s'.name = name)) →
          sitesAfterAll (home'.map (·.collection)) (some (.node kind children)) children =
            front ++ s :: mid →
          KeptIn input c name s
            (recordsOf (changesOfAll input home' (some (.node kind children)) children)) := by
        intro home' haway hdotless mid hmid hsplit
        rw [sitesAfterAll_eq] at hsplit hdotless
        obtain ⟨before, u, after, front', back', rfl, hu, rfl⟩ := flatMap_split hsplit
        obtain ⟨hmid, hafter⟩ := List.forall_mem_append.mp hmid
        have hmem : u ∈ before ++ u :: after := List.mem_append_right _ (List.mem_cons_self ..)
        have hkept := ih u hmem (hparts u hmem) (fun _ => rfl) haway
          (fun s' hs' => hdotless s' (List.mem_flatMap.mpr ⟨u, hmem, hs'⟩)) hu hcollection hname
          hmid
        rw [changesOfAll_eq, recordsOf_flatMap, List.flatMap_append, List.flatMap_cons,
          ← List.append_assoc]
        refine hkept.within _ fun r hr hunder => ?_
        obtain ⟨v, hv, hr⟩ := List.mem_flatMap.mp hr
        have hvmem : v ∈ before ++ u :: after := List.mem_append_right _ (List.mem_cons_of_mem _ hv)
        rcases under_changes hrel v (hparts v hvmem) (fun _ => rfl)
          (fun owner howner => (haway owner howner).ne)
          (fun s' hs' => hdotless s' (List.mem_flatMap.mpr ⟨v, hvmem, hs'⟩)) r hr hunder with
          ⟨owner, howner, hholds⟩ | ⟨s', hs', hcollection', hname', -⟩
        · exact (haway owner howner).not_under hholds.1 hunder
        · exact hafter s' (List.mem_flatMap.mpr ⟨v, hv, hs'⟩) ⟨hcollection', hname'⟩
      rcases split_single hsplit hone with ⟨hhere, -⟩ | ⟨mid, hinner, rfl⟩
      · obtain ⟨o, hstands, hopening, hnode⟩ := standsAt_of_site hc hparent hhere hcollection hname
        refine ⟨[], children, home, o, [], hstands, ?_, List.forall_mem_nil _⟩
        rw [recordsOf_opening hopening, hstands.collection, hnode]
        simp
      · obtain ⟨hmid, hhere⟩ := List.forall_mem_append.mp hback
        cases hopening : opening input home parent kind (.node kind children) with
        | some o =>
            have haway : Home.Away ⟨o.scope.path, o.scope.place.collection⟩ [c.key, name] :=
              away_of_opening hopening hhome fun s' hs' => ⟨hhereDotless s' hs', hhere s' hs'⟩
            rw [(site_of_opening hopening).1] at hinner hinnerDotless
            have hkept := @hchildren (some ⟨o.scope.path, o.scope.place.collection⟩)
              (fun owner howner => Option.mem_some.mp howner ▸ haway) hinnerDotless _ hmid hinner
            rw [recordsOf_opening hopening]
            simpa using hkept.within o.records (List.forall_mem_nil _)
        | none =>
            rcases site_of_single hparent hopening with ⟨hleaf, -⟩ | ⟨hnone, -⟩
            · rw [sitesAfterAll_leaf hleaf hholds hparts] at hinner
              exact absurd hinner.symm (List.append_ne_nil_of_right_ne_nil _ (List.cons_ne_nil _ _))
            · rw [hnone, Option.none_or] at hinner hinnerDotless
              rw [recordsOf_single hopening]
              simpa using
                (hchildren hhome hinnerDotless hmid hinner).within _ (List.forall_mem_nil _)

/-! ### The paths of a kept construct -/

theorem inner_subset (t : Tree) : ∀ {within : Option Collection} {parent : Option Tree},
    ∀ s ∈ sitesAfter within parent t, s.inner ⊆ sitesAfter within parent t := by
  induction t using Tree.induct with
  | leaf => exact fun _ hs => nomatch hs
  | node kind children ih =>
      intro within parent s hs
      rw [sitesAfter, List.mem_append] at hs
      rcases hs with hs | hs
      · rw [sitesAfterAll_eq, List.mem_flatMap] at hs
        obtain ⟨u, hu, hs⟩ := hs
        intro s' hs'
        rw [sitesAfter, sitesAfterAll_eq]
        exact List.mem_append_left _ (List.mem_flatMap.mpr ⟨u, hu, ih u hu s hs hs'⟩)
      · obtain ⟨c, hc, rfl⟩ := List.mem_map.mp hs
        intro s' hs'
        rw [sitesAfter, Option.mem_toList.mp hc]
        exact List.mem_append_left _ hs'

/-- The collections whose constructs have paths with spans. -/
def Collection.located : List Collection :=
  [.entities, .enums, .inputs, .outputs, .events, .apis, .plugins, .services, .aggregates]

theorem kept?_mem {c : Collection} {name : String} {t : Tree} {s : Site}
    (h : kept? c name t = some s) : s ∈ sitesAfter none none t :=
  List.mem_reverse.mp (List.mem_of_find?_eq_some h)

section
variable {naming : Naming} {source : String} {c : Collection} {name : String} {s : Site}

/-- Among the records of a text are those of every construct that is kept. -/
theorem keptIn_model (naming : Naming) (hc : c ∈ Collection.located)
    (h : kept? c name (parse source).tree = some s) :
    KeptIn ⟨naming, source.toList⟩ c name s
      (recordsOf (changes ⟨naming, source.toList⟩ none none (parse source).tree)) := by
  obtain ⟨hcollection, hname, front, back, hsplit, hback⟩ := kept?_eq_some h
  refine kept_changes ?_ ?_ (parse source).tree (shaped_parse source)
    (show (none : Option Home).isSome → _ from fun h => nomatch h) (fun _ h => nomatch h)
    (fun s hs => site_dotless (shaped_parse source) (Tree.plain_parse source) hs)
    hsplit hcollection hname hback
  · rintro rfl
    exact absurd hc (by decide)
  · revert hc
    cases c <;> decide

theorem dotless_kept (h : kept? c name (parse source).tree = some s) : Dotless name := by
  obtain ⟨-, hname, -⟩ := kept?_eq_some h
  exact hname ▸ site_dotless (shaped_parse source) (Tree.plain_parse source) (kept?_mem h)

theorem shaped_kept (h : kept? c name (parse source).tree = some s) :
    ∃ within, Shaped within s.node :=
  (proper_of_mem (shaped_parse source) (kept?_mem h)).shaped

/-- What stands in a kept construct that does not recur records deeper than two steps below. -/
theorem deep_inside (hc : c ∈ Collection.located) (h : kept? c name (parse source).tree = some s)
    (hrecurs : ¬s.Recurs) {t : Tree} {owner : Home}
    {within : NodeKind} {parent : Option Tree} (hshaped : Shaped within t)
    (hsites : ∀ s' ∈ sitesAfter (some owner.collection) parent t, s' ∈ s.inner)
    (hparent : parent.isSome) (hpath : owner.path ≠ "") {r : String × Option Span}
    (hr : r ∈ recordsOf (changes ⟨naming, source.toList⟩ (some owner) parent t))
    (hunder : Under [c.key, name] r.1) : owner.Holds r := by
  obtain ⟨hcollection, hname, -⟩ := kept?_eq_some h
  have hrel : c ≠ .relationships := by
    rintro rfl
    exact absurd hc (by decide)
  rcases under_changes hrel t hshaped
    (show (some owner).isSome → _ from fun _ => hparent)
    (fun owner' howner' => Option.mem_some.mp howner' ▸ hpath)
    (fun s' hs' => site_dotless (shaped_parse source) (Tree.plain_parse source)
      (inner_subset _ s (kept?_mem h) (hsites s' hs'))) r hr hunder with
    ⟨owner', howner', hholds⟩ | ⟨s', hs', hcollection', hname', -⟩
  · rwa [Option.mem_some.mp howner'] at *
  · exact absurd ⟨s', hsites s' hs', hcollection ▸ hcollection', hname ▸ hname'⟩ hrecurs

/-- **A short path of a kept construct leads to what the construct recorded**, unless it
contains a construct of its own name. -/
theorem location?_kept (naming : Naming) (hc : c ∈ Collection.located)
    (h : kept? c name (parse source).tree = some s) (hrecurs : ¬s.Recurs) :
    ∃ children home o, StandsAt ⟨naming, source.toList⟩ c name s children home o ∧
      ∀ path span, Under [c.key, name] path → (steps path).length ≤ 3 →
        Records.span? o.records path = some span →
          (Direct.model naming source).location? path = some span := by
  obtain ⟨before, children, home, o, after, hstands, hrecords, hafter⟩ :=
    keptIn_model naming hc h
  refine ⟨children, home, o, hstands, fun path span hunder hshort hspan => ?_⟩
  rw [location?_model, hrecords, Records.span?_of_front fun r hr heq => hafter r hr (heq ▸ hunder)]
  refine Records.span?_of_back ?_
  rw [Records.span?_of_front fun r hr heq => ?_]
  · exact hspan
  · -- What stands in the construct lies two steps below it, or deeper.
    rw [changesOfAll_eq, recordsOf_flatMap, List.mem_flatMap] at hr
    obtain ⟨u, hu, hr⟩ := hr
    obtain ⟨within, hshaped⟩ := shaped_kept h
    have hchild : u ∈ s.node.children := by rwa [hstands.node]
    have hsteps : steps o.scope.path = [c.key, name] :=
      hstands.path ▸ Path.steps_key c (dotless_kept h)
    have hne : o.scope.path ≠ "" := by
      rw [hstands.path]
      simp
    obtain ⟨within, hpart⟩ := hshaped.child hchild
    have hdeep : Home.Holds ⟨o.scope.path, c⟩ r :=
      deep_inside hc h hrecurs hpart (fun s' hs' => ?_) rfl hne hr (heq ▸ hunder)
    · have hlong : (steps o.scope.path).length + 2 ≤ (steps r.1).length := hdeep.2
      rw [hsteps, heq] at hlong
      exact absurd (Nat.le_trans hlong hshort) (by simp)
    · obtain ⟨hcollection, -⟩ := kept?_eq_some h
      rw [Direct.Site.inner, sitesAfterAll_eq, hcollection]
      exact List.mem_flatMap.mpr ⟨u, hchild, hs'⟩

end

/-! ### Members -/

/-- The kinds of members that have paths with spans. -/
def memberKinds : List NodeKind := [.field, .serviceMethod, .aggregateCommand]

/-- The slots of members that have paths with spans, and the constructs that have such slots. -/
theorem memberSlots_cases {t : Tree} {kind : NodeKind} {m : MemberSlot} (hm : m ∈ memberSlots t kind)
    (hkind : m.kind ∈ memberKinds) :
    kind ∈ [NodeKind.entity, .input, .output, .event, .nestedField] ∧
        m = ⟨"fields", .field, fieldEntry⟩ ∨
      kind = .service ∧ m = ⟨"methods", .serviceMethod, methodEntry (some t)⟩ ∨
      kind = .aggregate ∧ m = ⟨"commands", .aggregateCommand, commandEntry (some t)⟩ := by
  cases kind
  case entity | input | output | event | nestedField =>
    exact .inl ⟨by decide, List.mem_singleton.mp hm⟩
  case service => exact .inr (.inl ⟨rfl, List.mem_singleton.mp hm⟩)
  case aggregate => exact .inr (.inr ⟨rfl, List.mem_singleton.mp hm⟩)
  case api | enumeration =>
    obtain rfl := List.mem_singleton.mp hm
    exact absurd hkind (by decide)
  case plugin => rcases List.mem_pair.mp hm with rfl | rfl <;> exact absurd hkind (by decide)
  all_goals exact absurd hm List.not_mem_nil

/-- Such a member stands in the construct itself or in the body of a declaration. -/
theorem ownBody_cases {t : Tree} {kind : NodeKind} {m : MemberSlot} (hm : m ∈ memberSlots t kind)
    (hkind : m.kind ∈ memberKinds) :
    ownBody t kind = t.children ∨
      ownBody t kind = ((t.child? .declBody).map Tree.children).getD [] := by
  rcases memberSlots_cases hm hkind with ⟨hfields, -⟩ | ⟨rfl, -⟩ | ⟨rfl, -⟩
  · simp only [List.mem_cons, List.not_mem_nil, or_false] at hfields
    rcases hfields with rfl | rfl | rfl | rfl | rfl
    case inr.inr.inr.inr => exact .inl rfl
    all_goals exact .inr rfl
  · exact .inl rfl
  · exact .inl rfl

/-- Of what stands in nodes of one kind, nodes of a second kind alone record anything. -/
def Only (kind part : NodeKind) : Prop :=
  ∀ k ∈ NodeKind.holds .sourceFile kind, k = part ∨ Silent kind k ∨ k ∈ leafKinds

instance (kind part : NodeKind) : Decidable (Only kind part) :=
  inferInstanceAs (Decidable (∀ k ∈ _, _))

theorem recordsOf_idle {input : BuildInput} {within : NodeKind} {t : Tree}
    (hshaped : Shaped within t) (hidle : ∀ k ∈ kindsOf [t], Silent within k ∨ k ∈ leafKinds)
    (home : Option Home) (parent : Option Tree) : recordsOf (changes input home parent t) = [] := by
  cases t with
  | leaf => rfl
  | node kind children =>
      rcases hidle kind (List.mem_cons_self ..) with hsilent | hleaf
      · rw [(silent_tree hshaped (fun k hk => ?_) input home parent).2]
        · rfl
        · rwa [List.mem_singleton.mp hk]
      · cases hshaped with
        | node hholds _ _ hparts =>
        have hopening : opening input home parent kind (.node kind children) = none := by
          cases kind <;> first
            | exact absurd hleaf (by decide)
            | rfl
        rw [changes, hopening, changesOfAll_leaf hleaf hholds hparts]
        refine List.eq_nil_iff_forall_not_mem.mpr fun r hr => ?_
        rw [List.append_nil] at hr
        obtain ⟨records, hrecords, -⟩ := mem_recordsOf hr
        cases kind <;> first
          | exact absurd hleaf (by decide)
          | simp [single, entered] at hrecords

theorem flatMap_filter_of {α β : Type} {f : α → List β} {p : α → Bool} {as : List α}
    (h : ∀ a ∈ as, p a = false → f a = []) : as.flatMap f = (as.filter p).flatMap f := by
  induction as with
  | nil => rfl
  | cons a as ih =>
      obtain ⟨ha, has⟩ := List.forall_mem_cons.mp h
      rw [List.flatMap_cons, ih has, List.filter_cons]
      cases hp : p a with
      | true => rfl
      | false => rw [ha hp]; rfl

theorem recordsOf_only {input : BuildInput} {within kind part : NodeKind} {children : List Tree}
    (hshaped : Shaped within (.node kind children)) (honly : Only kind part) (home : Option Home)
    (parent : Option Tree) : recordsOf (changesOfAll input home parent children) =
      (children.filter (Tree.isNode part)).flatMap fun u =>
        recordsOf (changes input home parent u) := by
  cases hshaped with
  | node hholds _ _ hparts =>
  rw [changesOfAll_eq, recordsOf_flatMap]
  refine flatMap_filter_of fun u hu hother =>
    recordsOf_idle (hparts u hu) (fun k hk => ?_) home parent
  refine (honly k (NodeKind.holds_subset (hholds k (kindsOf_mem hu k hk)))).resolve_left ?_
  rintro rfl
  have hkind : u.kind? = some k := by
    cases u with
    | leaf => exact nomatch hk
    | node => exact congrArg some (List.mem_singleton.mp hk).symm
  rw [Tree.isNode, hkind, beq_self_eq_true] at hother
  exact Bool.noConfusion hother

/-- How a member begins does not depend on the node around it, as far as paths go. -/
theorem opening_member (input : BuildInput) {kind : NodeKind} (hkind : kind ∈ memberKinds)
    (home : Home) (parent : Option Tree) (t : Tree) :
    ∃ o, opening input (some home) none kind t = some o ∧
      ∃ o', opening input (some home) parent kind t = some o' ∧ o'.records = o.records ∧
        o'.scope.path = o.scope.path ∧ o'.scope.place = o.scope.place := by
  cases kind <;> first
    | exact absurd hkind (by decide)
    | exact ⟨_, rfl, _, rfl, rfl, rfl, rfl⟩

theorem recordsOf_member {input : BuildInput} {home : Home} {u : Tree} {kind : NodeKind}
    (hkind : kind ∈ memberKinds) (hu : u.isNode kind = true) (parent : Option Tree) :
    recordsOf (changes input (some home) parent u) =
      recordsOf (changes input (some home) none u) := by
  cases u with
  | leaf => exact nomatch hu
  | node k children =>
      obtain rfl : k = kind := Option.some.inj (beq_iff_eq.mp hu)
      obtain ⟨o, ho, o', ho', hrecords, hpath, hplace⟩ :=
        opening_member input hkind home parent (.node k children)
      rw [recordsOf_opening ho, recordsOf_opening ho', hrecords, hpath, hplace]

theorem recordsOf_filter {input : BuildInput} {home : Home} {part : NodeKind}
    (hpart : part ∈ memberKinds) (ts : List Tree) (parent : Option Tree) :
    ((ts.filter (Tree.isNode part)).flatMap fun u =>
        recordsOf (changes input (some home) parent u)) =
      (ts.filter (Tree.isNode part)).flatMap fun u =>
        recordsOf (changes input (some home) none u) :=
  List.flatMap_congr fun _ hu => recordsOf_member hpart (List.mem_filter.mp hu).2 _

/-- What the body of a declaration records is what its fields record. -/
theorem recordsOf_body {input : BuildInput} {home : Home} {within : NodeKind} {body : Tree}
    (hshaped : Shaped within body) (hbody : body.isNode .declBody = true) (parent : Option Tree) :
    recordsOf (changes input (some home) parent body) =
      (body.children.filter (Tree.isNode .field)).flatMap fun u =>
        recordsOf (changes input (some home) none u) := by
  cases body with
  | leaf => exact nomatch hbody
  | node kind children =>
      obtain rfl : kind = .declBody := Option.some.inj (beq_iff_eq.mp hbody)
      rw [changes]
      show recordsOf ([] ++ changesOfAll input (some home) _ children) = _
      rw [List.nil_append, recordsOf_only hshaped (by decide : Only .declBody .field),
        recordsOf_filter (by decide)]
      rfl

/-- **What is recorded inside a construct is what its members record.** -/
theorem recordsOf_members (input : BuildInput) (home : Home) {within kind : NodeKind}
    {children : List Tree} (hshaped : Shaped within (.node kind children)) {m : MemberSlot}
    (hm : m ∈ memberSlots (.node kind children) kind) (hkind : m.kind ∈ memberKinds) :
    recordsOf (changesOfAll input (some home) (some (.node kind children)) children) =
      (members (.node kind children) kind m).flatMap fun u =>
        recordsOf (changes input (some home) none u) := by
  have hshaped' := hshaped
  cases hshaped with
  | node _ hturn _ hparts =>
  rcases memberSlots_cases hm hkind with ⟨hfields, rfl⟩ | ⟨rfl, rfl⟩ | ⟨rfl, rfl⟩
  · simp only [List.mem_cons, List.not_mem_nil, or_false] at hfields
    rcases hfields with rfl | rfl | rfl | rfl | rfl
    case inr.inr.inr.inr =>
      rw [recordsOf_only hshaped' (by decide : Only .nestedField .field), recordsOf_filter hkind]
      rfl
    all_goals
      rw [members, ownBody,
        show (Tree.child? _ _) = children.find? (Tree.isNode .declBody) from rfl,
        ← inside_eq hturn rfl, inside, List.filter_flatMap, List.flatMap_assoc,
        recordsOf_only hshaped' (by decide : Only _ .declBody)]
      refine List.flatMap_congr fun body hbody => ?_
      obtain ⟨hmem, hnode⟩ := List.mem_filter.mp hbody
      exact recordsOf_body (hparts body hmem) hnode _
  · rw [recordsOf_only hshaped' (by decide : Only .service .serviceMethod), recordsOf_filter hkind]
    rfl
  · rw [recordsOf_only hshaped' (by decide : Only .aggregate .aggregateCommand),
      recordsOf_filter hkind]
    rfl

theorem collectionOf_member {kind : NodeKind} (hkind : kind ∈ memberKinds)
    {within : Option Collection} : collectionOf within kind = none := by
  cases kind <;> first
    | rfl
    | exact absurd hkind (by decide)

/-- The constructs inside a member are constructs inside the one it stands in. -/
theorem sites_member {c : Collection} {kind : NodeKind} {t : Tree} {m : MemberSlot}
    (hm : m ∈ memberSlots t kind) (hkind : m.kind ∈ memberKinds) {u : Tree}
    (hu : u ∈ members t kind m) :
    ∀ s ∈ sitesAfterAll (some c) (some u) u.children,
      s ∈ sitesAfterAll (some c) (some t) t.children := by
  intro s hs
  obtain ⟨hbody, hnode⟩ := List.mem_filter.mp hu
  -- A member is no stored construct itself, so what is inside it stands in the collection of `t`.
  have hself : ∀ parent, s ∈ sitesAfter (some c) parent u := by
    intro parent
    cases u with
    | leaf => exact absurd hs List.not_mem_nil
    | node k children =>
        have hk : k = m.kind := Option.some.inj (beq_iff_eq.mp hnode)
        rw [sitesAfter, collectionOf_member (hk ▸ hkind), Option.none_or]
        exact List.mem_append_left _ hs
  have hown : u ∈ t.children → s ∈ sitesAfterAll (some c) (some t) t.children := by
    intro hmem
    rw [sitesAfterAll_eq]
    exact List.mem_flatMap.mpr ⟨u, hmem, hself _⟩
  have hin : u ∈ ((t.child? .declBody).map Tree.children).getD [] →
      s ∈ sitesAfterAll (some c) (some t) t.children := by
    intro hmem
    cases hchild : t.child? .declBody with
    | none =>
        rw [hchild] at hmem
        exact absurd hmem List.not_mem_nil
    | some body =>
        rw [hchild] at hmem
        obtain ⟨hbodyMem, hbodyKind⟩ := Tree.child?_spec hchild
        rw [sitesAfterAll_eq]
        refine List.mem_flatMap.mpr ⟨body, hbodyMem, ?_⟩
        cases body with
        | leaf => exact absurd hmem List.not_mem_nil
        | node k children =>
            obtain rfl := Option.some.inj hbodyKind
            rw [sitesAfter, sitesAfterAll_eq]
            exact List.mem_append_left _ (List.mem_flatMap.mpr ⟨u, hmem, hself _⟩)
  rcases ownBody_cases hm hkind with heq | heq <;> rw [heq] at hbody
  · exact hown hbody
  · exact hin hbody

theorem recordsOf_operation {input : BuildInput} {within kind : NodeKind} {children : List Tree}
    (hshaped : Shaped within (.node kind children))
    (hkind : kind ∈ [NodeKind.serviceMethod, .aggregateCommand]) (home : Option Home)
    (parent : Option Tree) : recordsOf (changesOfAll input home parent children) = [] := by
  have hidle : ∀ k ∈ NodeKind.holds .sourceFile kind, Silent kind k ∨ k ∈ leafKinds := by
    rcases List.mem_pair.mp hkind with rfl | rfl <;> decide
  cases hshaped with
  | node hholds _ _ hparts =>
  rw [changesOfAll_eq, recordsOf_flatMap]
  exact List.flatMap_eq_nil_iff.mpr fun u hu => recordsOf_idle (hparts u hu)
    (fun k hk => hidle k (NodeKind.holds_subset (hholds k (kindsOf_mem hu k hk)))) home parent

theorem path_of_member {input : BuildInput} {home : Home} {parent : Option Tree} {t u : Tree}
    {kind : NodeKind} {m : MemberSlot} (hm : m ∈ memberSlots t kind) (hkind : m.kind ∈ memberKinds)
    {o : Opening} (ho : opening input (some home) parent m.kind u = some o) :
    o.scope.path = home.path ++ "." ++ (m.slot ++ "." ++ u.nameOrEmpty) ∧
      o.scope.place.collection = home.collection ∧ m.slot ∈ ["fields", "methods", "commands"] := by
  rcases memberSlots_cases hm hkind with ⟨-, rfl⟩ | ⟨-, rfl⟩ | ⟨-, rfl⟩
  all_goals
    obtain rfl := Option.some.inj ho
    refine ⟨String.toList_inj.mp ?_, rfl, by simp⟩
    simp [Build.field, Build.serviceMethod, Build.aggregateCommand, Build.operation, Home.scope]

theorem Path.steps_member (c : Collection) {name slot member : String} (hname : Dotless name)
    (hslot : Dotless slot) (hmember : Dotless member) :
    steps (c.key ++ "." ++ name ++ "." ++ (slot ++ "." ++ member)) =
      [c.key, name, slot, member] := by
  have hpieces : (slot ++ "." ++ member).toList = slot.toList ++ '.' :: member.toList := by simp
  rw [Path.steps_append (by simp), Path.steps_key c hname, hpieces, Text.splitOn_append,
    Text.splitOn_of_not_mem hslot, Text.splitOn_of_not_mem hmember]
  simp

section
variable {naming : Naming} {source : String} {c : Collection} {name : String} {s : Site}

/-- The members of a stored construct have names without dots. -/
theorem dotless_member (h : s ∈ sitesAfter none none (parse source).tree) {m : MemberSlot}
    {u : Tree} (hu : u ∈ members s.node s.kind m) :
    u.isNode m.kind = true ∧ Dotless u.nameOrEmpty ∧ Piece source u ∧
      ∃ within, Shaped within u := by
  obtain ⟨hown, hnode⟩ := List.mem_filter.mp hu
  obtain ⟨within, hshaped⟩ := (proper_of_mem (shaped_parse source) h).shaped
  obtain ⟨hpart, within', hshaped'⟩ := ownBody_part hshaped hown
  have hwhole := hpart.trans (site_part _ s h).1
  exact ⟨hnode, ((Tree.plain_parse source).part hwhole).nameOrEmpty hshaped', hwhole, within',
    hshaped'⟩

/-- What a member and everything in it records lies below the member, or not below the
construct at all. -/
theorem under_member (naming : Naming) (hc : c ∈ Collection.located)
    (h : kept? c name (parse source).tree = some s) (hrecurs : ¬s.Recurs) {m : MemberSlot}
    (hm : m ∈ memberSlots s.node s.kind) (hkind : m.kind ∈ memberKinds) {u : Tree}
    (hu : u ∈ members s.node s.kind m) :
    ∃ o children, opening ⟨naming, source.toList⟩ (some ⟨c.key ++ "." ++ name, c⟩) none m.kind u =
        some o ∧ steps o.scope.path = [c.key, name, m.slot, u.nameOrEmpty] ∧
      u = .node m.kind children ∧
      recordsOf (changes ⟨naming, source.toList⟩ (some ⟨c.key ++ "." ++ name, c⟩) none u) =
        o.records ++ recordsOf (changesOfAll ⟨naming, source.toList⟩
          (some ⟨o.scope.path, o.scope.place.collection⟩) (some u) children) ∧
      (∀ r ∈ o.records, Under (steps o.scope.path) r.1) ∧
      ∀ r ∈ recordsOf (changesOfAll ⟨naming, source.toList⟩
          (some ⟨o.scope.path, o.scope.place.collection⟩) (some u) children),
        Under [c.key, name] r.1 → Home.Holds ⟨o.scope.path, o.scope.place.collection⟩ r := by
  obtain ⟨hnode, hdotless, -, within, hshaped⟩ := dotless_member (kept?_mem h) hu
  obtain ⟨o, ho, -⟩ := opening_member ⟨naming, source.toList⟩ hkind
    ⟨c.key ++ "." ++ name, c⟩ none u
  obtain ⟨hpath, hcollection, hslot⟩ := path_of_member hm hkind ho
  have hsteps := Path.steps_member c (dotless_kept h)
    ((by decide : ∀ slot ∈ ["fields", "methods", "commands"], Dotless slot) _ hslot) hdotless
  have hne : o.scope.path ≠ "" := by
    rw [hpath]
    simp
  obtain ⟨children, rfl⟩ := Tree.exists_node (beq_iff_eq.mp hnode)
  refine ⟨o, children, ho, hpath ▸ hsteps, rfl, recordsOf_opening ho, fun r hr => ?_,
    fun r hr hunder => ?_⟩
  · rcases below_opening ho r hr with hbelow | ⟨hnested, -⟩
    · exact hbelow.under hne
    · exact absurd (hnested ▸ hkind) (by decide)
  · rw [changesOfAll_eq, recordsOf_flatMap, List.mem_flatMap] at hr
    obtain ⟨v, hv, hr⟩ := hr
    cases hshaped with
    | node _ _ _ hparts =>
    have hinner := sites_member (c := c) hm hkind hu
    rw [sitesAfterAll_eq] at hinner
    refine deep_inside hc h hrecurs (hparts v hv) (fun s' hs' => ?_) rfl hne hr hunder
    rw [Direct.Site.inner, (kept?_eq_some h).1]
    rw [hcollection] at hs'
    exact hinner s' (List.mem_flatMap.mpr ⟨v, hv, hs'⟩)

/-- **A path of a member leads to what the last member of its name recorded**, if it is too
short to belong to a check behind the block of a field. -/
theorem location?_member (hc : c ∈ Collection.located)
    (h : kept? c name (parse source).tree = some s) (hrecurs : ¬s.Recurs) {m : MemberSlot}
    (hm : m ∈ memberSlots s.node s.kind) (hkind : m.kind ∈ memberKinds) {front back : List Tree}
    {u : Tree} (hmembers : members s.node s.kind m = front ++ u :: back)
    (hlast : ∀ v ∈ back, v.nameOrEmpty ≠ u.nameOrEmpty) {o : Opening}
    (ho : opening ⟨naming, source.toList⟩ (some ⟨c.key ++ "." ++ name, c⟩) none m.kind u = some o)
    {path : String} {span : Span} (hunder : Under [c.key, name, m.slot, u.nameOrEmpty] path)
    (hshort : m.kind = .field → (steps path).length ≤ 5)
    (hspan : Records.span? o.records path = some span) :
    (Direct.model naming source).location? path = some span := by
  obtain ⟨before, children, home, o', after, hstands, hrecords, hafter⟩ :=
    keptIn_model naming hc h
  have hplace : Under [c.key, name] path := (List.prefix_append [c.key, name] _).trans hunder
  obtain ⟨within, hshaped⟩ := shaped_kept h
  have hinside := recordsOf_members ⟨naming, source.toList⟩ ⟨c.key ++ "." ++ name, c⟩
    (hstands.node ▸ hshaped) (hstands.node ▸ hm) hkind
  rw [← hstands.node, hmembers, List.flatMap_append, List.flatMap_cons] at hinside
  rw [location?_model, hrecords, hstands.path, hinside,
    Records.span?_of_front fun r hr heq => hafter r hr (heq ▸ hplace)]
  have hu : u ∈ members s.node s.kind m :=
    hmembers ▸ List.mem_append_right _ (List.mem_cons_self ..)
  obtain ⟨o'', children', ho'', hsteps, hnode, hown, -, hdeep⟩ :=
    under_member naming hc h hrecurs hm hkind hu
  obtain rfl := Option.some.inj (ho.symm.trans ho'')
  refine Records.span?_of_back (Records.span?_of_back (Records.span?_of_back ?_))
  rw [Records.span?_of_front fun r hr heq => ?_, hown, Records.span?_of_front fun r hr heq => ?_]
  · exact hspan
  · -- Inside a field everything lies deeper, and inside a method or a command there is nothing.
    by_cases hfield : m.kind = .field
    · have hlong : (steps o.scope.path).length + 2 ≤ (steps r.1).length :=
        (hdeep r hr (heq ▸ hplace)).2
      rw [hsteps, heq] at hlong
      exact absurd (Nat.le_trans hlong (hshort hfield)) (by simp)
    · obtain ⟨-, -, -, within', hshaped'⟩ := dotless_member (kept?_mem h) hu
      have hoperation : m.kind ∈ [NodeKind.serviceMethod, .aggregateCommand] :=
        (List.mem_cons.mp hkind).resolve_left hfield
      rw [recordsOf_operation (hnode ▸ hshaped') hoperation] at hr
      exact nomatch hr
  · obtain ⟨v, hv, hr⟩ := List.mem_flatMap.mp hr
    obtain ⟨o', _, -, hsteps', -, hown', hrecords', hdeep'⟩ := under_member naming hc h
      hrecurs hm hkind (hmembers ▸ List.mem_append_right _ (List.mem_cons_of_mem _ hv))
    rw [hown', List.mem_append] at hr
    have hbelow : Under (steps o'.scope.path) r.1 :=
      hr.elim (hrecords' r) fun hr => (hdeep' r hr (heq ▸ hplace)).1
    rw [hsteps', heq] at hbelow
    have hsame := (hbelow.prefix_of_le hunder (Nat.le_refl _)).eq_of_length rfl
    exact hlast v hv (by simpa using hsame)

end

end DomainModel
