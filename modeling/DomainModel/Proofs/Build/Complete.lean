/-
What is built of an accepted text is complete.

In a text without errors every construct is complete (`complete_parse`), and what is built of
a construct takes its name, its members and its options from there.  So no name in the document
is empty, whether it is a key of a collection, of a group of relationships or of a mapping
inside a node; a field has a type, an aggregate its root and an api its type
(`Collection.Complete`).

A block of fields has no name of its own.  It is stored under the type of its field and takes
over the options of that, so what the field is complete with is what it needs.  The name of a
group is that of the construct around a relationship, which is always there.
-/
import DomainModel.Proofs.Grammar.Complete
import DomainModel.Proofs.Build.Schema
import DomainModel.Proofs.Build.Coherence

namespace DomainModel

open Direct

/-! ### Complete nodes -/

/-- A mapping under a name that is not empty and that it says itself. -/
structure Titled (name : String) (v : Value) : Prop where
  filled : name ≠ ""
  named : Named name v

/-- The node has text at a key, and not the empty one. -/
def Says (key : String) (v : Value) : Prop := ∃ text, v.get? key = some (.string text) ∧ text ≠ ""

theorem says_of_told {key : String} {v : Value} {text : Option String} (htold : Told text)
    (h : v.get? key = some (.ofString? text)) : Says key v := by
  obtain ⟨word, rfl, hne⟩ := htold
  exact ⟨word, h, hne⟩

/-- The keys are not empty, whatever the values. -/
def Keyed (key : String) (_ : Value) : Prop := key ≠ ""

/-- A node with a name whose options have names, in the mapping and in the list. -/
structure Annotated (name : String) (v : Value) : Prop where
  titled : Titled name v
  options : Keeps Keyed "options" v
  listed : ∃ items, v.get? "optionsList" = some (.list items) ∧ ∀ item ∈ items, Says "name" item

structure CompleteField (name : String) (v : Value) : Prop where
  annotated : Annotated name v
  type : Says "type" v

/-- A relationship with a name; an end that is missing has no options. -/
structure CompleteRelationship (name : String) (v : Value) : Prop where
  titled : Titled name v
  options : ∀ slot ∈ ["fromOptions", "toOptions"], (v.get? slot).isSome → Keeps Keyed slot v

/-- What stands in a collection under a name when nothing was missed.  Settings and constants
are values under a name, all else are nodes with a name. -/
def Collection.Complete (c : Collection) (name : String) (v : Value) : Prop :=
  match c with
  | .config | .constants => name ≠ ""
  | .policies => Titled name v
  | .apis => Annotated name v ∧ Says "type" v ∧ Keeps Keyed "config" v
  | .plugins => Titled name v ∧ Keeps Keyed "config" v ∧ Keeps Keyed "cliOptions" v
  | .aggregates => Annotated name v ∧ Says "aggregateRoot" v ∧ Keeps Annotated "commands" v
  | .services => Annotated name v ∧ Keeps Annotated "methods" v
  | .entities | .inputs | .outputs | .events => Annotated name v ∧ Keeps CompleteField "fields" v
  | .enums => Annotated name v ∧ Keeps Titled "values" v
  | .relationships => IsGroup (· ≠ "") CompleteRelationship name v

/-- In every collection all is complete. -/
def Document.Complete (d : Document) : Prop := ∀ c, ∀ e ∈ d.collection c, c.Complete e.1 e.2

/-- Blocks of fields apart, what is stored in a collection has a name of its own. -/
theorem named_of_collection {inside : Option Collection} {kind : NodeKind} {c : Collection}
    (h : collectionOf inside kind = some c) : kind = .nestedField ∨ kind ∈ NodeKind.named := by
  cases kind <;> first
    | exact .inl rfl
    | exact .inr (by decide)
    | exact absurd h.symm (Option.some_ne_none c)

/-- Options that are noted of annotations have the names of these. -/
theorem annotated_of_notes {name : String} {v : Value} {notes : List (String × Value)}
    (htitled : Titled name v) (hoptions : v.get? "options" = some (.map (Dict.ofList notes)))
    (hlist : v.get? "optionsList" =
      some (.list (notes.map fun e => Build.namedEntry e.1 e.2)))
    (hnotes : ∀ e ∈ notes, e.1 ≠ "") : Annotated name v := by
  refine ⟨htitled, ⟨_, hoptions, fun e he => hnotes e (Dict.mem_ofList he)⟩, _, hlist, ?_⟩
  intro item hitem
  obtain ⟨e, he, rfl⟩ := List.mem_map.mp hitem
  exact ⟨e.1, rfl, hnotes e he⟩

/-- The one option that a construct is opened with, when no annotation can stand there. -/
theorem annotated_of_option {name option : String} {v value : Value} (htitled : Titled name v)
    (hoptions : v.get? "options" = some (.map [(option, value)]))
    (hlist : v.get? "optionsList" = some (.list [Build.namedEntry option value]))
    (hoption : option ≠ "") : Annotated name v :=
  @annotated_of_notes _ _ [(option, value)] htitled hoptions hlist fun _ he =>
    List.mem_singleton.mp he ▸ hoption

/-- The methods that nobody wrote have names and options with names, too. -/
theorem annotated_crud {n : Naming} {service : String} {entities : List String}
    {e : String × Value} (he : e ∈ Crud.methods n service entities) : Annotated e.1 e.2 := by
  have hnamed := (isOperation_crud he).named
  obtain ⟨entity, -, hmem⟩ := List.mem_flatMap.mp (Dict.mem_ofList he)
  simp only [Crud.methodsOf, List.mem_cons, List.not_mem_nil, or_false] at hmem
  rcases hmem with rfl | rfl | rfl | rfl | rfl <;>
    exact annotated_of_option ⟨by simp, hnamed⟩ rfl rfl (by decide)

/-- Members of a construct may stand in its body. -/
theorem piece_inside {source : String} {t u : Tree} {body : NodeKind} (hpart : Piece source t)
    (hu : u ∈ inside body t.children) : Piece source u := by
  obtain ⟨block, hblock, hmem⟩ := List.mem_flatMap.mp hu
  exact (hpart.child (List.mem_filter.mp hblock).1).child hmem

/-- A node keeps its name and its options where a change leaves their keys alone. -/
theorem annotated_of_same {name : String} {v w : Value} (h : Annotated name v)
    (hmap : ∃ node, w = .map node)
    (hsame : ∀ key ∈ ["name", "options", "optionsList"], w.get? key = v.get? key) :
    Annotated name w := by
  obtain ⟨⟨hfilled, old, rfl, hname⟩, ⟨options, hoptions, hkeyed⟩, items, hitems, hsays⟩ := h
  obtain ⟨node, rfl⟩ := hmap
  refine ⟨⟨hfilled, node, rfl, ?_⟩, ⟨options, ?_, hkeyed⟩, items, ?_, hsays⟩
  · exact (hsame "name" (by decide)).trans hname
  · exact (hsame "options" (by decide)).trans hoptions
  · exact (hsame "optionsList" (by decide)).trans hitems

/-- The options of an end are noted like those of a construct. -/
theorem complete_of_ends {type name : String} {origin target : Option Tree} (hname : name ≠ "")
    (horigin : ∀ e ∈ origin, ∀ note ∈ notesIn e.children, note.1 ≠ "")
    (htarget : ∀ e ∈ target, ∀ note ∈ notesIn e.children, note.1 ≠ "") :
    CompleteRelationship name (.map ([("type", .string type), ("name", .string name)] ++
      (origin.map (Build.endMembers .origin)).getD [] ++
      (target.map (Build.endMembers .target)).getD [])) := by
  refine ⟨⟨hname, (isRelationship_of_ends ..).named⟩, fun slot hslot hsome => ?_⟩
  cases origin <;> cases target <;> rcases List.mem_pair.mp hslot with rfl | rfl <;> first
    | exact absurd hsome Bool.false_ne_true
    | exact ⟨_, rfl, fun note hnote => horigin _ rfl note (Dict.mem_ofList hnote)⟩
    | exact ⟨_, rfl, fun note hnote => htarget _ rfl note (Dict.mem_ofList hnote)⟩

/-- A relationship stands in a group. -/
theorem group_of_relationship {outer within : NodeKind}
    (h : NodeKind.relationship ∈ NodeKind.holds outer within) : within = .relationshipGroup := by
  replace h := NodeKind.holds_subset h
  revert h
  cases within <;> decide

section
variable {source : String} (hnone : (parse source).complaints = [])
include hnone

/-! ### Members -/

theorem nameOrEmpty_ne {t : Tree} {kind : NodeKind} (hpart : Piece source t)
    (hkind : t.kind? = some kind) (hnamed : kind ∈ NodeKind.named) : t.nameOrEmpty ≠ "" := by
  obtain ⟨name, hname, hne⟩ := (complete_parse hnone hpart hkind).name hnamed
  rwa [Tree.nameOrEmpty, hname]

theorem fieldTypeOf_told {t : Tree} (hpart : Piece source t) (hkind : t.kind? = some .field) :
    Told (Build.fieldTypeOf t).1 := by
  obtain ⟨name, hname, hne⟩ := (complete_parse hnone hpart hkind).fieldType rfl
  obtain ⟨type, htype, hidentifier⟩ := Option.bind_eq_some_iff.mp hname
  rw [Build.fieldTypeOf, htype]
  dsimp only
  split
  · exact ⟨"byte[]", rfl, by decide⟩
  · exact ⟨name, hidentifier, hne⟩

/-- No annotation of a construct lacks a name. -/
theorem notesIn_named {t : Tree} (hpart : Piece source t) :
    ∀ e ∈ notesIn t.children, e.1 ≠ "" := by
  intro e he
  obtain ⟨a, ha, hentry⟩ := List.mem_filterMap.mp he
  obtain ⟨hmem, hkind⟩ := List.mem_filter.mp ha
  obtain ⟨name, hname, rfl⟩ := Option.map_eq_some_iff.mp hentry
  obtain ⟨word, hword, hne⟩ :=
    (complete_parse hnone (hpart.child hmem) (beq_iff_eq.mp hkind)).annotated rfl
  obtain rfl := Option.some.inj (hword.symm.trans hname)
  exact hne

theorem completeField_entry {t : Tree} (hpart : Piece source t) (hkind : t.kind? = some .field) :
    CompleteField (fieldEntry t).1 (fieldEntry t).2 := by
  have hget := get?_fieldEntry t
  have hfilled := nameOrEmpty_ne hnone hpart hkind (by decide)
  refine ⟨annotated_of_notes ⟨hfilled, (isField_entry t).named⟩ ((hget "options").trans rfl)
    ((hget "optionsList").trans rfl) (notesIn_named hnone hpart), ?_⟩
  exact says_of_told (fieldTypeOf_told hnone hpart hkind) ((hget "type").trans rfl)

/-- Methods and commands differ in the members that they begin with. -/
theorem annotated_noted {t : Tree} (hpart : Piece source t) {members : Members}
    (hfilled : t.nameOrEmpty ≠ "") (hname : Dict.get? members "name" = some (.string t.nameOrEmpty)) :
    Annotated t.nameOrEmpty (.map (Dict.extend members (noted t.children))) := by
  have hget := @Dict.get?_extend_of_nodup _ members (noted t.children)
    (show ["options", "optionsList"].Nodup by decide)
  exact annotated_of_notes ⟨hfilled, _, rfl, (get?_noted (by decide) (by decide)).trans hname⟩
    ((hget "options").trans rfl) ((hget "optionsList").trans rfl) (notesIn_named hnone hpart)

/-! ### Constructs -/

/-- A stored construct has a name that is not empty. -/
theorem site_filled {s : Site} (hs : s ∈ sitesAfter none none (parse source).tree) :
    s.name ≠ "" := by
  have hproper := proper_of_mem (shaped_parse source) hs
  obtain ⟨inside, hplace⟩ := hproper.place
  rw [Site.name]
  split
  · rename_i hblock
    obtain ⟨-, children, hparent, -, howner, -⟩ := belongs_parse hs hblock
    obtain ⟨name, hname, hne⟩ := (complete_parse hnone howner rfl).fieldType rfl
    rw [hparent, Option.bind_some, hname]
    exact hne
  · rename_i hblock
    have hnamed := (named_of_collection hplace).resolve_left hblock
    exact nameOrEmpty_ne hnone (site_part _ s hs).1 hproper.kind hnamed

/-- Options of a construct that notes its annotations. -/
theorem annotated_finished {o : Opening} {kind : NodeKind} {t : Tree} {name : String}
    (hpart : Piece source t) (hkind : annotatable.contains kind = true)
    (htitled : Titled name (finished o kind t)) : Annotated name (finished o kind t) := by
  have hslots : slots kind t = noted t.children ++ content t kind t.children := by
    rw [slots, slotsOf, if_pos hkind]
  refine annotated_of_notes htitled (get?_finished_slot ?_) (get?_finished_slot ?_)
    (notesIn_named hnone hpart)
  · rw [hslots]
    rfl
  · rw [hslots]
    rfl

/-- A block of fields has the options of its field, which are in no list there. -/
theorem block_complete (input : BuildInput) {s : Site}
    (hs : s ∈ sitesAfter none none (parse source).tree) (hblock : s.kind = .nestedField) :
    Annotated s.name (s.value input) ∧ Keeps CompleteField "fields" (s.value input) := by
  have hfilled := site_filled hnone hs
  have hpart : Piece source s.node := (site_part _ s hs).1
  obtain ⟨-, children, hparent, -, howner, -⟩ := belongs_parse hs hblock
  obtain ⟨c, parent, kind, node⟩ := s
  obtain rfl : kind = .nestedField := hblock
  obtain rfl : parent = some (.node .field children) := hparent
  refine ⟨⟨⟨hfilled, named_finished rfl rfl⟩, ⟨_, (get?_finished_other rfl).trans rfl,
    fun e he => ?_⟩, [], (get?_finished_other rfl).trans rfl, nofun⟩, ?_⟩
  · rcases Dict.mem_extend he with he | he
    · rw [List.mem_singleton.mp he]
      exact (by decide : "embedded" ≠ "")
    · exact notesIn_named hnone howner e (Dict.mem_ofList he)
  · exact keeps_entries (get?_finished_slot rfl) fun t ht htkind =>
      completeField_entry hnone (hpart.child ht) htkind

/-- **What a construct of an accepted text stores is complete.** -/
theorem site_complete (naming : Naming) {s : Site}
    (hs : s ∈ sitesAfter none none (parse source).tree) :
    s.collection.Complete s.name (s.value ⟨naming, source.toList⟩) := by
  have hproper := proper_of_mem (shaped_parse source) hs
  have hadmits := hproper.admits (block_stored (shaped_parse source) rfl s hs)
    ⟨naming, source.toList⟩
  have hfilled := site_filled hnone hs
  have hpart := (site_part _ s hs).1
  have hstored := block_stored (shaped_parse source) rfl s hs
  have hblock := block_complete hnone ⟨naming, source.toList⟩ hs
  obtain ⟨c, parent, kind, node⟩ := s
  obtain ⟨hkind, -, -, inside, hcollection⟩ := hproper
  replace hcollection : collectionOf inside kind = some c := hcollection
  replace hpart : Piece source node := hpart
  have hmember : ∀ {k : NodeKind}, k ∈ NodeKind.named → ∀ t ∈ node.children, t.kind? = some k →
      t.nameOrEmpty ≠ "" := fun hk t ht htkind =>
    nameOrEmpty_ne hnone (hpart.child ht) htkind hk
  cases kind
  case nestedField =>
    have hc : c ∈ Collection.withFields := hstored rfl
    have hcomplete := hblock rfl
    cases c <;> first
      | exact hcomplete
      | exact absurd hc (by decide)
  all_goals first
    | exact absurd hcollection.symm (Option.some_ne_none c)
    | obtain rfl := Option.some.inj hcollection
  case legacyConstant | configOption => exact hfilled
  case policy => exact ⟨hfilled, hadmits⟩
  case api =>
    have htype := (complete_parse hnone hpart hkind).apiType rfl
    exact ⟨annotated_finished hnone hpart rfl ⟨hfilled, hadmits⟩,
      says_of_told htype ((get?_finished_other rfl).trans rfl),
      keeps_entries (get?_finished_slot rfl) (hmember (by decide))⟩
  case plugin =>
    exact ⟨⟨hfilled, hadmits⟩, keeps_entries (get?_finished_slot rfl) (hmember (by decide)),
      keeps_entries (get?_finished_slot rfl) (hmember (by decide))⟩
  case entity | input | output | event =>
    refine ⟨annotated_finished hnone hpart rfl ⟨hfilled, hadmits.named⟩,
      keeps_entries (get?_finished_slot rfl) fun t ht htkind => ?_⟩
    exact completeField_entry hnone (piece_inside hpart ht) htkind
  case enumeration =>
    refine ⟨annotated_finished hnone hpart rfl ⟨hfilled, hadmits.1⟩,
      keeps_entries (get?_finished_slot rfl) fun t ht htkind => ?_⟩
    exact ⟨nameOrEmpty_ne hnone (piece_inside hpart ht) htkind (by decide), _, rfl, rfl⟩
  case service =>
    refine ⟨annotated_finished hnone hpart rfl ⟨hfilled, hadmits.1⟩,
      keeps_entries (get?_finished_slot rfl) fun t ht htkind => ?_⟩
    exact annotated_noted hnone (hpart.child ht) (hmember (by decide) t ht htkind) rfl
  case legacyService =>
    exact ⟨annotated_of_option ⟨hfilled, hadmits.1⟩ ((get?_finished_other rfl).trans rfl)
      ((get?_finished_other rfl).trans rfl) (by decide), _, (get?_finished_other rfl).trans rfl,
      fun _ he => annotated_crud he⟩
  case aggregate =>
    have hroot := (complete_parse hnone hpart hkind).aggregateRoot rfl
    refine ⟨annotated_finished hnone hpart rfl ⟨hfilled, hadmits.1⟩,
      says_of_told hroot ((get?_finished_other rfl).trans rfl),
      keeps_entries (get?_finished_slot rfl) fun t ht htkind => ?_⟩
    exact annotated_noted hnone (hpart.child ht) (hmember (by decide) t ht htkind) rfl

/-! ### Relationships -/

/-- **A relationship of an accepted text has a name and stands in a group with one.** -/
theorem complete_found (naming : Naming) {r : Build.Relation}
    (hr : r ∈ found (relationsOf ⟨naming, source.toList⟩) none (parse source).tree) :
    r.type ≠ "" ∧ CompleteRelationship r.name (.map r.node) := by
  obtain ⟨owner, kind, u, hpick, hkind, howner⟩ := stands_found _ r hr
  cases kind
  case relationship =>
    obtain rfl := List.mem_singleton.mp hpick
    rcases howner with ⟨-, rfl⟩ | ⟨v, rfl, hv, hmem⟩
    · exact NodeKind.noConfusion (Option.some.inj hkind)
    have hends : ∀ side, ∀ e ∈ Build.endOn u side, ∀ note ∈ notesIn e.children, note.1 ≠ "" :=
      fun side e he => notesIn_named hnone
        ((Piece.child hv hmem).child? _ e (Option.mem_filter_iff.mp he).1)
    refine ⟨?_, complete_of_ends (by simp [Build.relation]) (hends .origin) (hends .target)⟩
    obtain ⟨_, hshaped⟩ := Shaped.part hv (shaped_parse source)
    cases hshaped with
    | leaf => exact absurd hmem List.not_mem_nil
    | node hholds _ _ _ =>
        obtain rfl := group_of_relationship (hholds _ (List.mem_filterMap.mpr ⟨u, hmem, hkind⟩))
        exact nameOrEmpty_ne hnone hv rfl (by decide)
  all_goals exact absurd hpick List.not_mem_nil

/-! ### Documents -/

/-- **Nothing is missing in what is built of an accepted text.** -/
theorem complete_draft (naming : Naming) :
    (draft ⟨naming, source.toList⟩ (parse source).tree).document.Complete := by
  intro c e he
  by_cases hc : c = .relationships
  · subst hc
    rw [draft_document _ (shaped_parse source), Direct.document_collection] at he
    exact isGroup_foldl (N := (· ≠ "")) (P := CompleteRelationship) _
      (fun _ hr => complete_found hnone naming hr) [] nofun e he
  · obtain ⟨s, hs, rfl, hname, hvalue⟩ := site_of_mem (shaped_parse source) hc he
    rw [← hname, ← hvalue]
    exact site_complete hnone naming hs

end

namespace Classification

theorem completeField_field {symbols : SymbolTable} {name : String} {v : Value}
    (h : CompleteField name v) : CompleteField name (onMap (field symbols) v) := by
  obtain ⟨hannotated, type, htype, hne⟩ := h
  obtain ⟨node, rfl, -⟩ := hannotated.titled.named
  have hsame : ∀ key ∈ ["name", "options", "optionsList", "type"],
      Dict.get? (field symbols node) key = Dict.get? node key := fun key hkey =>
    get?_field_other symbols node fun hflag => by revert key; decide
  refine ⟨annotated_of_same hannotated ⟨_, rfl⟩ fun key hkey => hsame key ?_, type, ?_, hne⟩
  · exact List.mem_append_left ["type"] hkey
  · exact (hsame "type" (by decide)).trans htype

/-- A declaration that lacks nothing lacks nothing when its fields are classified. -/
theorem complete_declaration {symbols : SymbolTable} {name : String} {v : Value}
    (h : Annotated name v ∧ Keeps CompleteField "fields" v) :
    Annotated name (declaration symbols v) ∧
      Keeps CompleteField "fields" (declaration symbols v) := by
  obtain ⟨hannotated, fields, hfields, hall⟩ := h
  obtain ⟨node, rfl, -⟩ := hannotated.titled.named
  refine ⟨annotated_of_same hannotated ⟨_, rfl⟩ fun key hkey => ?_,
    onValues (onMap (field symbols)) fields, ?_, fun e he => ?_⟩
  · rw [get?_declaration, if_neg]
    rintro rfl
    exact absurd hkey (by decide)
  · rw [get?_declaration, if_pos rfl, hfields]
    rfl
  · obtain ⟨e, hmem, rfl⟩ := List.mem_map.mp he
    exact completeField_field (hall e hmem)

end Classification

/-- **Classification takes nothing away.** -/
theorem Model.classify_complete {m : Model} (hcomplete : m.document.Complete)
    (hdecls : ∀ c ∈ Collection.withFields, Classification.Declarations (m.document.collection c)) :
    m.classify.document.Complete := by
  intro c e he
  rw [Classification.collection_classify hdecls] at he
  split at he
  · rename_i hc
    obtain ⟨e, hmem, rfl⟩ := List.mem_map.mp he
    have hold := hcomplete c e hmem
    cases c <;> first
      | exact Classification.complete_declaration hold
      | exact absurd hc (by decide)
  · exact hcomplete c e he

/-- **What is accepted is complete**: every construct of the text has its name and what else it
cannot do without, and so has every node in the document, classified or not. -/
theorem buildModel_complete (naming : Naming) (source : String)
    (h : (parse source).errors source = []) :
    (∀ (t : Tree) (kind : NodeKind), t.Part (parse source).tree → t.kind? = some kind →
      t.Complete kind) ∧
      ∃ m, buildModel naming source = .ok m ∧ m.document.Complete ∧
        m.classify.document.Complete := by
  have hnone : (parse source).complaints = [] := List.map_eq_nil_iff.mp h
  have hcomplete : (Direct.model naming source).document.Complete := complete_draft hnone naming
  refine ⟨fun _ _ hpart hkind => complete_parse hnone hpart hkind, _, buildModel_eq naming source,
    hcomplete, Model.classify_complete hcomplete fun _ hc => ?_⟩
  exact declarations_draft ⟨naming, source.toList⟩ (shaped_parse source) (Tree.plain_parse source)
    hc

theorem buildModel_complete_block :
    let source := "entity A \x7b @id x B \x7b y C \x7d \x7d relationship T \x7b A to B \x7d"
    (parse source).errors source = [] ∧
      (∀ t : Tree, t.Part (parse source).tree → t.kind? = some .annotationNode →
        Told t.identifier?) ∧
      ∃ m, buildModel .english source = .ok m ∧ m.document.Complete := by
  intro source
  have h : (parse source).errors source = [] := by decide +kernel
  obtain ⟨hparts, m, hm, hcomplete, -⟩ := buildModel_complete .english source h
  exact ⟨h, fun t hpart hkind => (hparts t _ hpart hkind).annotated rfl, m, hm, hcomplete⟩

end DomainModel
