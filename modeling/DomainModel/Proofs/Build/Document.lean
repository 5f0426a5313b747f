/-
Every collection holds its names as they were met and its nodes as they were completed.

The changes of a tree reserve a name in front of what is inside a construct and store its
node behind.  Seen from one collection they are a row of writes, and `Traces` relates such
a row to the constructs of the tree in both orders: the reservations follow the one, the
nodes the other, and no name stays without a node.  That is all `arranged_writes` asks for.
`buildModel_document` puts it together with the simulation: the document of a text is the
one that `Direct.document` reads off its tree.
-/
import DomainModel.Proofs.Build.Simulation

namespace DomainModel

open Direct

/-! ### One collection at a time -/

/-- What a change writes into a collection. -/
def Change.write? (c : Collection) : Change → Option Dict.Write
  | .reserved c' name => if c' = c then some (name, none) else none
  | .stored c' name v => if c' = c then some (name, some v) else none
  | _ => none

/-- The writes of some changes into a collection. -/
def writes (c : Collection) (cs : List Change) : List Dict.Write := cs.filterMap (Change.write? c)

theorem writes_append (c : Collection) (cs ds : List Change) :
    writes c (cs ++ ds) = writes c cs ++ writes c ds := List.filterMap_append ..

theorem collection_change {c : Collection} (hc : c ≠ .relationships) (d : Draft) (change : Change) :
    (d.change change).document.collection c =
      ((change.write? c).toList.foldl Dict.write (d.document.collection c)) := by
  cases change with
  | recorded | imported | commented => rfl
  | reserved c' name =>
      rw [Draft.change, Document.collection_update, Change.write?]
      split <;> rfl
  | stored c' name v =>
      rw [Draft.change, Document.collection_update, Change.write?]
      split <;> rfl
  | related r =>
      rw [Draft.change, Document.collection_update, if_neg hc.symm]
      rfl

/-- A collection is what is written into it. -/
theorem collection_changes {c : Collection} (hc : c ≠ .relationships) (cs : List Change) :
    ∀ d : Draft, (cs.foldl Draft.change d).document.collection c =
      (writes c cs).foldl Dict.write (d.document.collection c) := by
  induction cs with
  | nil => exact fun _ => rfl
  | cons change cs ih =>
      intro d
      have hwrites : writes c (change :: cs) = (change.write? c).toList ++ writes c cs := by
        rw [writes, List.filterMap_cons]
        cases change.write? c <;> rfl
      rw [List.foldl_cons, ih, collection_change hc, hwrites, List.foldl_append]

/-! ### Writes and constructs -/

/-- The sites of a collection. -/
def sitesOf (c : Collection) (sites : List Site) : List Site := sites.filter (·.collection = c)

theorem sitesOf_append (c : Collection) (ss us : List Site) :
    sitesOf c (ss ++ us) = sitesOf c ss ++ sitesOf c us := List.filter_append ..

/-- The writes of some changes into a collection, next to the constructs that they come
from: `before` as they are met, `behind` as they are completed. -/
structure Traces (input : BuildInput) (c : Collection) (cs : List Change)
    (before behind : List Site) : Prop where
  names : ∀ front : List String, (front ++ (writes c cs).map (·.1)).eraseDups =
    (front ++ (sitesOf c before).map Site.name).eraseDups
  stores : Dict.stores (writes c cs) =
    (sitesOf c behind).map fun s => (s.name, s.value input)
  stored : ∀ name ∈ (writes c cs).map (·.1), name ∈ (Dict.stores (writes c cs)).map (·.1)

namespace Traces

variable {input : BuildInput} {c : Collection}

theorem of_no_writes {cs : List Change} (h : writes c cs = []) : Traces input c cs [] [] where
  names _ := by rw [h]; rfl
  stores := by rw [h]; rfl
  stored := by rw [h]; exact fun _ h => nomatch h

theorem nil : Traces input c [] [] [] := .of_no_writes rfl

theorem append {cs ds : List Change} {before behind before' behind' : List Site}
    (h : Traces input c cs before behind) (h' : Traces input c ds before' behind') :
    Traces input c (cs ++ ds) (before ++ before') (behind ++ behind') where
  names front := by
    rw [writes_append, sitesOf_append, List.map_append, List.map_append, ← List.append_assoc,
      ← List.append_assoc, h'.names]
    exact eraseDups_append_congr (h.names front) _
  stores := by
    rw [writes_append, sitesOf_append, Dict.stores, List.filterMap_append, ← Dict.stores,
      ← Dict.stores, h.stores, h'.stores, List.map_append]
  stored name hname := by
    rw [writes_append, List.map_append] at hname
    rw [writes_append, Dict.stores, List.filterMap_append, List.map_append]
    exact List.mem_append.mpr ((List.mem_append.mp hname).imp (h.stored name) (h'.stored name))

/-- A construct around some changes reserves its name in front and stores its node behind. -/
theorem around {cs : List Change} {before behind : List Site} (s : Site)
    (h : Traces input c cs before behind) :
    Traces input c (.reserved s.collection s.name :: (cs ++
      [.stored s.collection s.name (s.value input)])) (s :: before) (behind ++ [s]) := by
  by_cases hc : s.collection = c
  · have hwrites : writes c (.reserved s.collection s.name :: (cs ++
        [.stored s.collection s.name (s.value input)])) =
        (s.name, none) :: (writes c cs ++ [(s.name, some (s.value input))]) := by
      simp [writes, Change.write?, hc]
    have hstores : Dict.stores ((s.name, none) :: (writes c cs ++
        [(s.name, some (s.value input))])) =
        Dict.stores (writes c cs) ++ [(s.name, s.value input)] := by
      simp [Dict.stores]
    refine ⟨fun front => ?_, ?_, ?_⟩
    · have hmem : s.name ∈ (front ++ [s.name]) ++ (writes c cs).map (·.1) := by simp
      have hbefore : sitesOf c (s :: before) = s :: sitesOf c before := by simp [sitesOf, hc]
      calc (front ++ (writes c _).map (·.1)).eraseDups
          = (((front ++ [s.name]) ++ (writes c cs).map (·.1)) ++ [s.name]).eraseDups := by
            rw [hwrites]
            simp
        _ = ((front ++ [s.name]) ++ (writes c cs).map (·.1)).eraseDups := by
            rw [eraseDups_concat, if_pos hmem]
        _ = (front ++ (sitesOf c (s :: before)).map Site.name).eraseDups := by
            rw [h.names, hbefore]
            simp
    · rw [hwrites, hstores, sitesOf_append, List.map_append, h.stores]
      simp [sitesOf, hc]
    · intro name hname
      rw [hwrites] at hname
      rw [hwrites, hstores, List.map_append]
      simp only [List.map_cons, List.map_append, List.map_nil, List.mem_cons, List.mem_append,
        List.not_mem_nil, or_false] at hname ⊢
      rcases hname with rfl | hname | rfl
      · exact .inr rfl
      · exact .inl (h.stored name hname)
      · exact .inr rfl
  · have hwrites : writes c (.reserved s.collection s.name :: (cs ++
        [.stored s.collection s.name (s.value input)])) = writes c cs := by
      simp [writes, Change.write?, hc]
    have hbefore : sitesOf c (s :: before) = sitesOf c before := by simp [sitesOf, hc]
    have hbehind : sitesOf c (behind ++ [s]) = sitesOf c behind := by simp [sitesOf, hc]
    exact ⟨fun front => by rw [hwrites, hbefore, h.names], by rw [hwrites, hbehind, h.stores],
      by rw [hwrites]; exact h.stored⟩

end Traces

/-! ### The constructs of a tree -/

/-- Nothing is stored from a silent tree. -/
theorem silent_sites {within : NodeKind} {t : Tree} (hshaped : Shaped within t)
    (hsilent : ∀ k ∈ kindsOf [t], Silent within k) (inside : Option Collection)
    (parent : Option Tree) : sitesBefore inside parent t = [] ∧ sitesAfter inside parent t = [] := by
  refine silent_induct (P := fun t => ∀ inside parent,
    sitesBefore inside parent t = [] ∧ sitesAfter inside parent t = []) (fun _ _ _ => ⟨rfl, rfl⟩) ?_
    t within hshaped hsilent inside parent
  intro within kind children hkind hparts inside parent
  have hnone : collectionOf inside kind = none := by
    obtain ⟨hmem, -⟩ := hkind
    cases kind <;> first
      | exact absurd hmem (by decide)
      | rfl
  have hbefore := List.flatMap_eq_nil_iff.mpr fun t ht =>
    (hparts t ht inside (some (.node kind children))).1
  have hafter := List.flatMap_eq_nil_iff.mpr fun t ht =>
    (hparts t ht inside (some (.node kind children))).2
  rw [sitesBefore, sitesAfter, siteOf, hnone, Option.none_or, sitesBeforeAll_eq, hbefore,
    sitesAfterAll_eq, hafter]
  exact ⟨rfl, rfl⟩

/-- A construct that opens a scope is stored in a collection or in the construct around it. -/
theorem site_of_opening {input : BuildInput} {home : Option Home} {parent : Option Tree}
    {kind : NodeKind} {t : Tree} {o : Opening} (h : opening input home parent kind t = some o) :
    (collectionOf (home.map (·.collection)) kind).or (home.map (·.collection)) =
        some o.scope.place.collection ∧
      (o.scope.place.slot ≠ none ∧ collectionOf (home.map (·.collection)) kind = none ∨
        o.scope.place.slot = none ∧ ∃ s, siteOf (home.map (·.collection)) parent kind t = [s] ∧
          s.collection = o.scope.place.collection ∧ s.name = o.scope.place.name ∧
            s.value input = finished o kind t) := by
  have hmap : ∀ {f : Home → Opening}, home.map f = some o → ∃ owner, home = some owner ∧ f owner = o :=
    fun h => by
      obtain ⟨owner, hhome, hf⟩ := Option.map_eq_some_iff.mp h
      exact ⟨owner, hhome, hf⟩
  cases kind <;> first
    | exact absurd h.symm (Option.some_ne_none _)
    | obtain rfl := Option.some.inj h
      exact ⟨rfl, .inr ⟨rfl, _, rfl, rfl, rfl, rfl⟩⟩
    | obtain ⟨owner, rfl, rfl⟩ := hmap h
      exact ⟨rfl, .inl ⟨Option.some_ne_none _, rfl⟩⟩
    | skip
  obtain ⟨owner, home, rfl, rfl, rfl⟩ := opening_block h
  exact ⟨rfl, .inr ⟨rfl, _, rfl, rfl, rfl, rfl⟩⟩

/-- A part that opens no scope is stored at once or not at all. -/
theorem site_of_single {input : BuildInput} {home : Option Home} {parent : Option Tree}
    {kind : NodeKind} {t : Tree} (hhome : home.isSome → parent.isSome)
    (h : opening input home parent kind t = none) :
    (kind ∈ leafKinds ∧ ∃ s, siteOf (home.map (·.collection)) parent kind t = [s] ∧
        single input parent kind t = entered s.collection (s.name, s.value input)) ∨
      collectionOf (home.map (·.collection)) kind = none ∧
        ∀ c, writes c (single input parent kind t) = [] := by
  cases kind <;> first
    | exact absurd h (Option.some_ne_none _)
    | exact .inr ⟨rfl, fun _ => rfl⟩
    | exact .inl ⟨by decide, _, rfl, rfl⟩
    | skip
  case globalJavadoc =>
    refine .inr ⟨rfl, fun c => ?_⟩
    rw [single]
    cases t.word? <;> rfl
  case importStatement =>
    refine .inr ⟨rfl, fun c => ?_⟩
    rw [single]
    cases t.literal? <;> rfl
  case nestedField =>
    refine .inr ⟨?_, fun _ => rfl⟩
    cases home with
    | none => rfl
    | some home =>
        obtain ⟨owner, rfl⟩ := Option.isSome_iff_exists.mp (hhome rfl)
        exact absurd h (Option.some_ne_none _)

theorem traces_all {input : BuildInput} {c : Collection} {home : Option Home}
    {parent : Option Tree} {ts : List Tree}
    (h : ∀ t ∈ ts, Traces input c (changes input home parent t)
      (sitesBefore (home.map (·.collection)) parent t)
      (sitesAfter (home.map (·.collection)) parent t)) :
    Traces input c (changesOfAll input home parent ts)
      (sitesBeforeAll (home.map (·.collection)) parent ts)
      (sitesAfterAll (home.map (·.collection)) parent ts) := by
  induction ts with
  | nil => exact .nil
  | cons t ts ih =>
      exact (h t (List.mem_cons_self ..)).append (ih fun u hu => h u (List.mem_cons_of_mem _ hu))

/-- **The changes of a tree follow its constructs** in both orders. -/
theorem traces_tree {input : BuildInput} {c : Collection} (t : Tree) :
    ∀ {within : NodeKind} (home : Option Home) (parent : Option Tree), Shaped within t →
      (home.isSome → parent.isSome) →
      Traces input c (changes input home parent t)
        (sitesBefore (home.map (·.collection)) parent t)
        (sitesAfter (home.map (·.collection)) parent t) := by
  induction t using Tree.induct with
  | leaf => exact fun _ _ _ _ => .of_no_writes rfl
  | node kind children ih =>
      intro within home parent hshaped hhome
      cases hshaped with
      | node hholds _ _ hparts =>
      have hinside : ∀ home : Option Home, Traces input c
          (changesOfAll input home (some (.node kind children)) children)
          (sitesBeforeAll (home.map (·.collection)) (some (.node kind children)) children)
          (sitesAfterAll (home.map (·.collection)) (some (.node kind children)) children) :=
        fun home => traces_all fun u hu => ih u hu home _ (hparts u hu) fun _ => rfl
      rw [changes, sitesBefore, sitesAfter]
      cases hopening : opening input home parent kind (.node kind children) with
      | some o =>
          obtain ⟨hcollection, hplace⟩ := site_of_opening hopening
          have hcs := hinside (some ⟨o.scope.path, o.scope.place.collection⟩)
          have hrecorded : Traces input c [.recorded o.records] [] [] := .of_no_writes rfl
          rw [hcollection]
          rcases hplace with ⟨hslot, hnone⟩ | ⟨hslot, s, hsite, hcoll, hname, hvalue⟩
          · have hplaced : o.scope.place.slot.isNone = false := by
              rwa [Option.isNone_eq_false_iff, Option.isSome_iff_ne_none]
            rw [siteOf, hnone]
            simpa [reservation, storage, hplaced] using hrecorded.append hcs
          · have hplaced : o.scope.place.slot.isNone = true := by simpa using hslot
            rw [hsite]
            simpa [reservation, storage, hplaced, hcoll, hname, hvalue] using
              hrecorded.append (hcs.around s)
      | none =>
          rcases site_of_single hhome hopening with ⟨hleaf, s, hsite, hentered⟩ | ⟨hnone, hwrites⟩
          · -- Inside such a part there is nothing to be found, so the order does not matter.
            have hsilent : ∀ u ∈ children, ∀ k ∈ kindsOf [u], Silent kind k := fun u hu k hk =>
              silent_of_leaf hleaf k (hholds k (kindsOf_mem hu k hk))
            have hchanges := List.flatMap_eq_nil_iff.mpr fun u hu => (silent_tree (hparts u hu)
              (hsilent u hu) input home (some (.node kind children))).2
            have hsites (inside : Option Collection) := fun u hu => silent_sites (hparts u hu)
              (hsilent u hu) inside (some (.node kind children))
            rw [hsite, hentered, changesOfAll_eq, hchanges, sitesBeforeAll_eq,
              List.flatMap_eq_nil_iff.mpr fun u hu => (hsites _ u hu).1, sitesAfterAll_eq,
              List.flatMap_eq_nil_iff.mpr fun u hu => (hsites _ u hu).2]
            exact Traces.nil.around s
          · have hcs := (Traces.of_no_writes (hwrites c)).append (hinside home)
            rw [siteOf, hnone, Option.none_or]
            simpa using hcs

/-- **Every collection holds its names as they are met, each with the node completed last.** -/
theorem arranged_collection (input : BuildInput) {within : NodeKind} {t : Tree}
    (hshaped : Shaped within t) {c : Collection} (hc : c ≠ .relationships) :
    Dict.Arranged (names c t) (entries input c t) ((draft input t).document.collection c) := by
  have htraces : Traces input c (changes input none none t) (sitesBefore none none t)
      (sitesAfter none none t) := traces_tree t none none hshaped (fun h => nomatch h)
  have hempty : Document.empty.collection c = [] := by cases c <;> rfl
  have harranged := Dict.arranged_writes (htraces.names []) htraces.stored
  rw [htraces.stores] at harranged
  rw [draft, collection_changes hc, show ({} : Draft).document = .empty from rfl, hempty]
  exact harranged

/-! ### The rest of the document -/

theorem single_of_opening {input : BuildInput} {home : Option Home} {parent : Option Tree}
    {kind : NodeKind} {t : Tree} {o : Opening} (h : opening input home parent kind t = some o) :
    single input parent kind t = [] := by
  cases kind <;> first
    | rfl
    | exact absurd h.symm (Option.some_ne_none o)

/-- What the parts of a tree add besides constructs is what is found in it. -/
theorem filterMap_changes {α : Type} {input : BuildInput} {p : Change → Option α}
    {pick : Option Tree → NodeKind → Tree → List α}
    (hrecorded : ∀ records, p (.recorded records) = none)
    (hreserved : ∀ c name, p (.reserved c name) = none)
    (hstored : ∀ c name v, p (.stored c name v) = none)
    (hsingle : ∀ parent kind t, (single input parent kind t).filterMap p = pick parent kind t)
    (t : Tree) : ∀ home parent, (changes input home parent t).filterMap p = found pick parent t := by
  induction t using Tree.induct with
  | leaf => exact fun _ _ => rfl
  | node kind children ih =>
      have hall : ∀ home, (changesOfAll input home (some (.node kind children)) children).filterMap p =
          foundAll pick (some (.node kind children)) children := by
        intro home
        rw [changesOfAll_eq, foundAll_eq, List.filterMap_flatMap]
        exact List.flatMap_congr fun t ht => ih t ht home _
      intro home parent
      rw [changes, found, ← hsingle]
      cases h : opening input home parent kind (.node kind children) with
      | none => rw [List.filterMap_append, hall]
      | some o =>
          have hfront : (Change.recorded o.records :: reservation o.scope.place).filterMap p = [] := by
            rw [reservation]
            split <;> simp [hrecorded, hreserved]
          have hback : ∀ v, (storage o.scope.place v).filterMap p = [] := by
            intro v
            rw [storage]
            split <;> simp [hstored]
          rw [single_of_opening h]
          simp only [List.filterMap_append, hfront, hback, hall, List.append_nil, List.nil_append,
            List.filterMap_nil]

def Change.import? : Change → Option Value
  | .imported v => some v
  | _ => none

def Change.comment? : Change → Option String
  | .commented text => some text
  | _ => none

def Change.relation? : Change → Option Build.Relation
  | .related r => some r
  | _ => none

theorem imports_changes (input : BuildInput) (t : Tree) (home : Option Home)
    (parent : Option Tree) :
    (changes input home parent t).filterMap Change.import? = found importsOf parent t := by
  refine filterMap_changes (fun _ => rfl) (fun _ _ => rfl) (fun _ _ _ => rfl) ?_ t home parent
  intro parent kind t
  cases kind with
  | globalJavadoc => rw [single]; cases t.word? <;> rfl
  | importStatement => rw [single, importsOf]; cases t.literal? <;> rfl
  | _ => rfl

theorem comments_changes (input : BuildInput) (t : Tree) (home : Option Home)
    (parent : Option Tree) :
    (changes input home parent t).filterMap Change.comment? = found commentsOf parent t := by
  refine filterMap_changes (fun _ => rfl) (fun _ _ => rfl) (fun _ _ _ => rfl) ?_ t home parent
  intro parent kind t
  cases kind with
  | globalJavadoc => rw [single, commentsOf]; cases t.word? <;> rfl
  | importStatement => rw [single]; cases t.literal? <;> rfl
  | _ => rfl

theorem relations_changes (input : BuildInput) (t : Tree) (home : Option Home)
    (parent : Option Tree) :
    (changes input home parent t).filterMap Change.relation? =
      found (relationsOf input) parent t := by
  refine filterMap_changes (fun _ => rfl) (fun _ _ => rfl) (fun _ _ _ => rfl) ?_ t home parent
  intro parent kind t
  cases kind with
  | globalJavadoc => rw [single]; cases t.word? <;> rfl
  | importStatement => rw [single]; cases t.literal? <;> rfl
  | _ => rfl

theorem imports_change (d : Draft) (change : Change) :
    (d.change change).document.imports = d.document.imports ++ change.import?.toList ∧
      (d.change change).document.javadoc = change.comment?.or d.document.javadoc ∧
      (d.change change).document.allEntitiesAndEnums = d.document.allEntitiesAndEnums := by
  cases change with
  | recorded => exact ⟨(List.append_nil _).symm, rfl, rfl⟩
  | imported | commented => exact ⟨by simp [Draft.change, Change.import?], rfl, rfl⟩
  | reserved c name | stored c name v | related r =>
      obtain ⟨himports, hjavadoc, hall⟩ := Document.rest_update d.document _ _
      exact ⟨himports.trans (List.append_nil _).symm, hjavadoc, hall⟩

/-- What is added besides constructs, to any document. -/
theorem rest_changes (cs : List Change) : ∀ d : Draft,
    (cs.foldl Draft.change d).document.imports =
        d.document.imports ++ cs.filterMap Change.import? ∧
      (cs.foldl Draft.change d).document.javadoc =
        (cs.filterMap Change.comment?).getLast?.or d.document.javadoc ∧
      (cs.foldl Draft.change d).document.allEntitiesAndEnums = d.document.allEntitiesAndEnums := by
  induction cs with
  | nil => exact fun d => ⟨(List.append_nil _).symm, rfl, rfl⟩
  | cons change cs ih =>
      intro d
      obtain ⟨himports, hjavadoc, hall⟩ := ih (d.change change)
      obtain ⟨himport, hcomment, hsame⟩ := imports_change d change
      rw [List.foldl_cons, himports, hjavadoc, hall, himport, hcomment, hsame]
      refine ⟨?_, ?_, rfl⟩
      · cases himp : change.import? <;> simp [himp]
      · cases hcom : change.comment? <;> simp [hcom, List.getLast?_cons]

theorem relationships_changes {cs : List Change} (h : writes .relationships cs = []) :
    ∀ d : Draft, (cs.foldl Draft.change d).document.relationships =
      (cs.filterMap Change.relation?).foldl Members.relate d.document.relationships := by
  induction cs with
  | nil => exact fun _ => rfl
  | cons change cs ih =>
      intro d
      have hrest : writes .relationships cs = [] :=
        List.filterMap_eq_nil_iff.mpr fun x hx =>
          List.filterMap_eq_nil_iff.mp h x (List.mem_cons_of_mem _ hx)
      have hfirst : change.write? .relationships = none :=
        List.filterMap_eq_nil_iff.mp h change (List.mem_cons_self ..)
      have hother {c : Collection} {w : Dict.Write} (f : Members → Members)
          (hwrite : (if c = .relationships then some w else none) = none) :
          (d.document.update c f).collection .relationships = d.document.relationships := by
        rw [Document.collection_update, if_neg fun hc => nomatch (if_pos hc).symm.trans hwrite]
        rfl
      rw [List.foldl_cons, ih hrest]
      cases change with
      | recorded | imported | commented => rfl
      | reserved c name =>
          exact congrArg (List.foldl Members.relate · _) (hother _ hfirst)
      | stored c name v =>
          exact congrArg (List.foldl Members.relate · _) (hother _ hfirst)
      | related r => rfl

/-- No construct is stored among the relationships. -/
theorem collection_of_site (t : Tree) : ∀ {within parent}, within ≠ some .relationships →
    ∀ s ∈ sitesBefore within parent t, s.collection ≠ .relationships := by
  induction t using Tree.induct with
  | leaf => exact fun _ _ hs => nomatch hs
  | node kind children ih =>
      intro within parent hwithin s hs
      have hcollection : collectionOf within kind ≠ some .relationships := by
        cases kind <;> first
          | exact hwithin
          | exact nofun
      rw [sitesBefore, List.mem_append, sitesBeforeAll_eq, List.mem_flatMap] at hs
      rcases hs with hs | ⟨t, ht, hs⟩
      · obtain ⟨c, hc, rfl⟩ := List.mem_map.mp hs
        exact fun heq => hcollection ((Option.mem_toList.mp hc).trans (congrArg some heq))
      · refine ih t ht ?_ s hs
        cases h : collectionOf within kind with
        | none => exact hwithin
        | some c => rwa [h] at hcollection

theorem Direct.document_collection (input : BuildInput) (t : Tree) (c : Collection) :
    (document input t).collection c = collection input t c := by
  cases c <;> rfl

/-- **The changes of a tree add up to its document.** -/
theorem draft_document (input : BuildInput) {within : NodeKind} {t : Tree}
    (hshaped : Shaped within t) : (draft input t).document = document input t := by
  obtain ⟨himports, hjavadoc, hall⟩ := rest_changes (changes input none none t) {}
  refine Document.eq_of ?_ (fun c => ?_) ?_ hall
  · rw [draft, himports, imports_changes]
    rfl
  · rw [document_collection]
    by_cases hc : c = .relationships
    · subst hc
      have htraces : Traces input .relationships (changes input none none t)
          (sitesBefore none none t) (sitesAfter none none t) :=
        traces_tree t none none hshaped (fun h => nomatch h)
      have hnone : sitesOf .relationships (sitesBefore none none t) = [] := by
        refine List.filter_eq_nil_iff.mpr fun s hs => ?_
        simpa using collection_of_site t (Option.some_ne_none _).symm s hs
      have hwrites : writes .relationships (changes input none none t) = [] := by
        have hnames := htraces.names []
        rw [hnone] at hnames
        refine List.eq_nil_iff_forall_not_mem.mpr fun w hw => ?_
        have hmem : w.1 ∈ (([] : List String) ++ (writes .relationships _).map (·.1)).eraseDups :=
          List.mem_eraseDups.mpr (List.mem_map_of_mem hw)
        rw [hnames] at hmem
        exact nomatch hmem
      exact (relationships_changes hwrites {}).trans
        (congrArg (List.foldl Members.relate []) (relations_changes input t none none))
    · rw [(arranged_collection input hshaped hc).eq]
      cases c <;> first
        | rfl
        | exact absurd rfl hc
  · rw [draft, hjavadoc, comments_changes, show ({} : Draft).document.javadoc = none from rfl,
      Option.or_none]
    rfl

/-! ### Members -/

/-- Where a body can stand but once, what stands in all bodies stands in the first. -/
theorem inside_eq {kind body : NodeKind} {ts : List Tree}
    (hturn : (kindsOf ts).Pairwise fun a b => kind.clashes a b = false)
    (hclash : kind.clashes body body = true) :
    inside body ts = ((ts.find? (Tree.isNode body)).map Tree.children).getD [] := by
  induction ts with
  | nil => rfl
  | cons t ts ih =>
      rw [← List.singleton_append, kindsOf_append, List.pairwise_append] at hturn
      obtain ⟨-, hrest, hacross⟩ := hturn
      rw [inside, List.filter_cons, List.find?_cons]
      cases ht : t.isNode body with
      | false => exact ih hrest
      | true =>
          have hnone : ts.filter (Tree.isNode body) = [] := by
            refine List.filter_eq_nil_iff.mpr fun u hu hnode => ?_
            have hfalse := hacross body (List.mem_filterMap.mpr ⟨t, by simp, beq_iff_eq.mp ht⟩)
              body (List.mem_filterMap.mpr ⟨u, hu, beq_iff_eq.mp hnode⟩)
            exact Bool.noConfusion (hfalse.symm.trans hclash)
          simp [hnone]

/-- What the slots of a construct keep is what stands in its own body. -/
theorem slots_members {within kind : NodeKind} {children : List Tree}
    (hshaped : Shaped within (.node kind children)) {m : MemberSlot}
    (hm : m ∈ memberSlots (.node kind children) kind) :
    Dict.get? (slots kind (.node kind children)) m.slot =
      some (.map (Dict.ofList ((members (.node kind children) kind m).map m.entry))) := by
  cases hshaped with
  | node _ hturn _ _ =>
  have hbody {body : NodeKind} (hclash : kind.clashes body body = true) :
      inside body children = (((Tree.node kind children).child? body).map Tree.children).getD [] :=
    inside_eq hturn hclash
  cases kind <;> first
    | exact absurd hm List.not_mem_nil
    | obtain rfl := List.mem_singleton.mp hm
      rfl
    | skip
  case plugin =>
    rcases List.mem_pair.mp hm with rfl | rfl <;> rfl
  case entity | input | output | event =>
    obtain rfl := List.mem_singleton.mp hm
    rw [members, ownBody, ← hbody rfl]
    rfl
  case enumeration =>
    obtain rfl := List.mem_singleton.mp hm
    rw [members, ownBody, ← hbody rfl]
    rfl

theorem memberSlots_entry {t : Tree} {kind : NodeKind} {m : MemberSlot}
    (hm : m ∈ memberSlots t kind) (u : Tree) : (m.entry u).1 = u.nameOrEmpty := by
  cases kind <;> first
    | exact absurd hm List.not_mem_nil
    | obtain rfl := List.mem_singleton.mp hm
      rfl
    | rcases List.mem_pair.mp hm with rfl | rfl <;> rfl

/-- What is known of a construct from where it stands. -/
structure Direct.Site.Proper (s : Site) : Prop where
  kind : s.node.kind? = some s.kind
  shaped : ∃ within, Shaped within s.node
  block : s.kind = .nestedField → s.parent.isSome
  place : ∃ inside, collectionOf inside s.kind = some s.collection

theorem site_proper (t : Tree) : ∀ {within : NodeKind} {inside : Option Collection}
    {parent : Option Tree}, Shaped within t → (inside.isSome → parent.isSome) →
    ∀ s ∈ sitesAfter inside parent t, s.Proper := by
  induction t using Tree.induct with
  | leaf => exact fun _ _ _ hs => nomatch hs
  | node kind children ih =>
      intro within inside parent hshaped hinside s hs
      rw [sitesAfter, List.mem_append, sitesAfterAll_eq, List.mem_flatMap] at hs
      rcases hs with ⟨t, ht, hs⟩ | hs
      · cases hshaped with
        | node _ _ _ hparts => exact ih t ht (hparts t ht) (fun _ => rfl) s hs
      · obtain ⟨c, hc, rfl⟩ := List.mem_map.mp hs
        refine ⟨rfl, ⟨within, hshaped⟩, fun hnested => hinside ?_, inside, Option.mem_toList.mp hc⟩
        have hkind : collectionOf inside kind = inside := by
          rw [show kind = .nestedField from hnested]
          rfl
        rw [← hkind, Option.mem_toList.mp hc]
        rfl

/-- Nothing is around a whole tree. -/
theorem proper_of_mem {within : NodeKind} {t : Tree} (h : Shaped within t) {s : Site}
    (hs : s ∈ sitesAfter none none t) : s.Proper :=
  site_proper t h (fun hinside => Bool.noConfusion hinside) s hs

/-- **The node of a construct holds what stands in its own body**, by name. -/
theorem Direct.Site.Proper.members {s : Site} (h : s.Proper) (input : BuildInput) {m : MemberSlot}
    (hm : m ∈ memberSlots s.node s.kind) :
    ∃ d, (s.value input).get? m.slot = some (.map d) ∧
      Dict.Arranged ((members s.node s.kind m).map Tree.nameOrEmpty)
        ((members s.node s.kind m).map m.entry) d := by
  obtain ⟨c, parent, kind, node⟩ := s
  obtain ⟨hkind, ⟨within, hshaped⟩, hblock, -⟩ := h
  have hopening : ∃ o, opening input (some ⟨"", c⟩) parent kind node = some o := by
    cases kind <;> first
      | exact absurd hm List.not_mem_nil
      | exact ⟨_, rfl⟩
      | skip
    obtain ⟨owner, rfl⟩ := Option.isSome_iff_exists.mp (hblock rfl)
    exact ⟨_, rfl⟩
  obtain ⟨o, ho⟩ := hopening
  obtain ⟨children, rfl⟩ : ∃ children, node = .node kind children := Tree.exists_node hkind
  have hslots := slots_members hshaped hm
  have hnodup : (Dict.keys (slots kind (.node kind children))).Nodup := nodup_slotsOf _ kind _
  have hnames : (·.1) ∘ m.entry = Tree.nameOrEmpty := funext fun u => memberSlots_entry hm u
  refine ⟨Dict.ofList ((Direct.members (.node kind children) kind m).map m.entry), ?_, ?_⟩
  · rw [Site.value]
    simp only [ho]
    rw [finished, Value.get?, Value.map?, Option.bind_some, Dict.get?_extend_of_nodup hnodup,
      hslots]
    rfl
  · have harranged := Dict.arranged_ofList ((Direct.members (.node kind children) kind m).map m.entry)
    rwa [List.map_map, hnames] at harranged

/-- **The document of a text is the one that the recursion reads off its tree.**  In every
collection but that of relationships, the names stand in the order in which the constructs
are met, and under each of them is the node of the construct completed last.  The node of a
construct holds the members of its own body, arranged in the same way. -/
theorem buildModel_document (naming : Naming) (source : String) :
    let input : BuildInput := ⟨naming, source.toList⟩
    let tree := (parse source).tree
    ∃ m, buildModel naming source = .ok m ∧ m.document = document input tree ∧
      (∀ c, c ≠ .relationships →
        Dict.Arranged (names c tree) (entries input c tree) (m.document.collection c)) ∧
      ∀ s ∈ sitesAfter none none tree, ∀ slot ∈ memberSlots s.node s.kind,
        ∃ d, (s.value input).get? slot.slot = some (.map d) ∧
          Dict.Arranged ((members s.node s.kind slot).map Tree.nameOrEmpty)
            ((members s.node s.kind slot).map slot.entry) d := by
  intro input tree
  have hshaped : Shaped .sourceFile tree := shaped_parse source
  refine ⟨_, buildModel_eq naming source, draft_document input hshaped, ?_, ?_⟩
  · exact fun c hc => arranged_collection input hshaped hc
  · intro s hs slot hslot
    have hproper : s.Proper := proper_of_mem hshaped hs
    exact hproper.members input hslot

end DomainModel
