/-
Annotations belong to the construct they stand in.

An annotation is read wherever it stands and noted with whatever construct is open there.
In the document every construct holds the annotations among its own children and no others:
all of them as a list, in the order of the text, and by name the last value of each
(`Value.Notes`).  Two kinds of constructs have no annotations of their own.  A declaration
made by a block takes over the options of the field that the block belongs to, and is
embedded unless the field says otherwise (`Value.Embeds`).  A service whose methods are not
written is always reachable from outside.  `Site.Annotated` puts the cases together, and
`buildModel_annotations` says it of everything that a document stores.
-/
import DomainModel.Proofs.Build.Coherence
import DomainModel.Proofs.Build.Schema

namespace DomainModel

open Direct

/-- The first entry of a mapping stays where it is; what extends it goes behind, but for a
value that takes its place. -/
theorem Dict.extend_cons {α : Type} {key : String} {value : α} {front more : Dict α}
    (hnodup : (keys more).Nodup) : extend ((key, value) :: front) more =
      (key, (get? more key).getD value) :: extend front (more.filter (·.1 ≠ key)) := by
  induction more generalizing value front with
  | nil => rfl
  | cons entry more ih =>
      obtain ⟨hfresh, hrest⟩ := List.nodup_cons.mp (show (entry.1 :: keys more).Nodup from hnodup)
      show extend (insert entry.1 entry.2 ((key, value) :: front)) more = _
      by_cases h : key = entry.1
      · subst h
        have hnone : get? more entry.1 = none := get?_eq_none_iff.mpr hfresh
        rw [insert, if_pos rfl, get?_cons, if_pos rfl, List.filter_cons_of_neg (by simp)]
        exact (ih hrest).trans (by rw [hnone]; rfl)
      · have hne : entry.1 ≠ key := fun heq => h heq.symm
        rw [insert, if_neg h, get?_cons, if_neg h, List.filter_cons_of_pos (by simpa using hne)]
        exact ih hrest

/-! ### What a node holds -/

/-- A node holds the annotations among some trees: the list of all, and a mapping in which
the last value of a name stands at the place of the first. -/
structure Value.Notes (v : Value) (ts : List Tree) : Prop where
  list : v.get? "optionsList" = some (.list ((notesIn ts).map fun e => Build.namedEntry e.1 e.2))
  options : ∃ d, v.get? "options" = some (.map d) ∧
    Dict.Arranged ((notesIn ts).map (·.1)) (notesIn ts) d

/-- A node holds no annotations of its own: in front it says that it is embedded, or what the
options of a field say of that, and behind that it has these options. -/
structure Value.Embeds (v field : Value) : Prop where
  list : v.get? "optionsList" = some .emptyList
  options : ∃ d, field.get? "options" = some (.map d) ∧ v.get? "options" = some (.map
    (("embedded", (Dict.get? d "embedded").getD (.bool true)) :: d.filter (·.1 ≠ "embedded")))

/-- What the node of a stored construct holds of annotations. -/
def Direct.Site.Annotated (s : Site) (v : Value) : Prop :=
  match s.kind with
  | .nestedField => ∃ owner, s.parent = some owner ∧ owner.kind? = some .field ∧
      s.node ∈ owner.children ∧ v.Embeds (fieldEntry owner).2
  | .legacyService =>
      v.get? "optionsList" = some (.list [Build.namedEntry "rest" (.bool true)]) ∧
        v.get? "options" = some (.map [("rest", .bool true)])
  | _ => v.Notes s.node.children

/-- The collections whose constructs have annotations. -/
def Collection.annotated : List Collection :=
  [.apis, .entities, .inputs, .outputs, .events, .enums, .services, .aggregates]

/-- **A construct that notes annotations holds those among its children**, whatever it holds
besides. -/
theorem notes_extend {kind : NodeKind} (hkind : kind ∈ annotatable) (members : Members)
    (t : Tree) : (Value.map (Dict.extend members (slots kind t))).Notes t.children := by
  have hnodup : (Dict.keys (slots kind t)).Nodup := nodup_slotsOf t kind t.children
  have hslots : slots kind t = noted t.children ++ content t kind t.children := by
    rw [slots, slotsOf, if_pos (List.contains_iff_mem.mpr hkind)]
  have hslot : ∀ key v, Dict.get? (slots kind t) key = some v →
      (Value.map (Dict.extend members (slots kind t))).get? key = some v := by
    intro key v hv
    show Dict.get? (Dict.extend members (slots kind t)) key = some v
    rw [Dict.get?_extend_of_nodup hnodup, hv, Option.some_or]
  refine ⟨hslot _ _ ?_, _, hslot _ _ ?_, Dict.arranged_ofList _⟩
  · rw [hslots]
    rfl
  · rw [hslots]
    rfl

/-- A field, a method or a command holds its annotations. -/
theorem notes_member {t : Tree} {kind : NodeKind} {m : MemberSlot} (hm : m ∈ memberSlots t kind)
    (hkind : m.kind ∈ memberKinds) (u : Tree) : (m.entry u).2.Notes u.children := by
  rcases memberSlots_cases hm hkind with ⟨-, rfl⟩ | ⟨-, rfl⟩ | ⟨-, rfl⟩
  · exact @notes_extend .field (by decide) _ u
  · exact @notes_extend .serviceMethod (by decide) _ u
  · exact @notes_extend .aggregateCommand (by decide) _ u

/-- The declaration that a block makes takes over what its field holds. -/
theorem embeds_block (input : BuildInput) (home : Home) (owner t : Tree) :
    (finished (Build.nestedField input (home.scope (Dict.ofList (notesIn owner.children))) owner t)
      .nestedField t).Embeds (fieldEntry owner).2 := by
  have hother : ∀ key ≠ "fields", Dict.get? (slots .nestedField t) key = none := by
    intro key hkey
    show Dict.get? [("fields", _)] key = none
    rw [Dict.get?_cons, if_neg hkey]
    rfl
  have hnodup : (Dict.keys (Dict.ofList (notesIn owner.children))).Nodup :=
    (Dict.arranged_ofList _).nodup
  have hembedded : Dict.extend [("embedded", .bool true)] (Dict.ofList (notesIn owner.children)) =
      ("embedded", (Dict.get? (Dict.ofList (notesIn owner.children)) "embedded").getD (.bool true))
        :: (Dict.ofList (notesIn owner.children)).filter (·.1 ≠ "embedded") := by
    rw [Dict.extend_cons hnodup]
    exact congrArg _ (Dict.ofList_of_nodup (hnodup.sublist (List.filter_sublist.map _)))
  refine ⟨?_, _, (get?_fieldEntry owner "options").trans rfl, ?_⟩
  · exact (get?_finished_other (hother _ (by decide))).trans rfl
  · rw [← hembedded]
    exact (get?_finished_other (hother _ (by decide))).trans rfl

/-- **A stored construct holds the annotations that it has.** -/
theorem annotated_site {s : Site} {source : String} (hproper : s.Proper)
    (hblock : s.kind = .nestedField → Belongs source s.parent s.node)
    (hc : s.collection ∈ Collection.annotated) (input : BuildInput) :
    s.Annotated (s.value input) := by
  obtain ⟨c, parent, kind, node⟩ := s
  obtain ⟨-, -, -, inside, hcollection⟩ := hproper
  replace hcollection : collectionOf inside kind = some c := hcollection
  replace hc : c ∈ Collection.annotated := hc
  have hnotes : kind ∈ annotatable → ∀ members,
      (Value.map (Dict.extend members (slots kind node))).Notes node.children :=
    fun hkind members => notes_extend hkind members node
  cases kind
  case nestedField =>
    obtain ⟨children, rfl, hmem, -⟩ := (hblock rfl).owner
    exact ⟨_, rfl, rfl, hmem, embeds_block ..⟩
  all_goals first
    | exact absurd hcollection.symm (Option.some_ne_none c)
    | obtain rfl := Option.some.inj hcollection
  case legacyService =>
    exact ⟨(get?_finished_other rfl).trans rfl, (get?_finished_other rfl).trans rfl⟩
  case legacyConstant | configOption | plugin | policy => exact absurd hc (by decide)
  all_goals exact hnotes (by decide) _

/-! ### What a document holds -/

/-- **Annotations reach the construct they stand in, and no other.**  Whatever the document of
a text stores was built from one construct and holds the annotations among the children of
that construct, or if a block of fields was it, those of its field; and of fields, methods and
commands the same is true.  A service whose methods are not written can have no annotations
and is given one option. -/
theorem buildModel_annotations (naming : Naming) (source : String) :
    ∃ m, buildModel naming source = .ok m ∧
      ∀ c ∈ Collection.annotated, ∀ e ∈ m.document.collection c,
        ∃ s, kept? c e.1 (parse source).tree = some s ∧
          s.value ⟨naming, source.toList⟩ = e.2 ∧ s.Annotated e.2 ∧
            ∀ slot ∈ memberSlots s.node s.kind, slot.kind ∈ memberKinds →
              ∃ d, e.2.get? slot.slot = some (.map d) ∧ ∀ f ∈ d,
                ∃ u ∈ members s.node s.kind slot, slot.entry u = f ∧ f.2.Notes u.children := by
  refine ⟨_, buildModel_eq naming source, fun c hc e he => ?_⟩
  have hrel : c ≠ .relationships := by
    rintro rfl
    exact absurd hc (by decide)
  obtain ⟨s, hs, hvalue⟩ := kept?_of_mem (shaped_parse source) hrel he
  obtain ⟨hcollection, -, -⟩ := kept?_eq_some hs
  have hproper := proper_of_mem (shaped_parse source) (kept?_mem hs)
  have hannotated := annotated_site hproper (belongs_parse (kept?_mem hs)) (hcollection ▸ hc)
    ⟨naming, source.toList⟩
  refine ⟨s, hs, hvalue, hvalue ▸ hannotated, fun slot hslot hkind => ?_⟩
  obtain ⟨d, hd, harranged⟩ := hproper.members ⟨naming, source.toList⟩ hslot
  refine ⟨d, hvalue ▸ hd, fun f hf => ?_⟩
  obtain ⟨front, u, back, hmembers, rfl, -, -⟩ := member_of_mem hslot harranged hf
  refine ⟨u, hmembers ▸ List.mem_append_right _ (List.mem_cons_self ..), rfl, ?_⟩
  exact notes_member hslot hkind u

/-- A service whose methods are not written has an option that no annotation gave it. -/
theorem annotations_unwritten :
    let source := "service A with S"
    (parse source).errors source = [] ∧ ∃ m, buildModel .english source = .ok m ∧
      ∃ v, Dict.get? m.document.services "S" = some v ∧
        v.get? "optionsList" = some (.list [Build.namedEntry "rest" (.bool true)]) ∧
        ∃ s, kept? .services "S" (parse source).tree = some s ∧
          s.value ⟨.english, source.toList⟩ = v ∧ notesIn s.node.children = [] ∧
          ¬v.Notes s.node.children := by
  intro source
  have hkeys : "S" ∈ Dict.keys ((Direct.model .english source).document.collection .services) := by
    decide +kernel
  obtain ⟨v, hv⟩ := Option.isSome_iff_exists.mp (Dict.mem_keys_iff.mp hkeys)
  obtain ⟨s, hs, hvalue⟩ := kept?_of_mem (shaped_parse source) (by decide) (Dict.mem_of_get? hv)
  have hkept : ∀ s ∈ kept? .services "S" (parse source).tree,
      s.kind = .legacyService ∧ (notesIn s.node.children).isEmpty = true := by
    decide +kernel
  obtain ⟨hkind, hempty⟩ := hkept s hs
  have hnone : notesIn s.node.children = [] := List.isEmpty_iff.mp hempty
  obtain ⟨hcollection, -, -⟩ := kept?_eq_some hs
  have hproper := proper_of_mem (shaped_parse source) (kept?_mem hs)
  have hannotated := annotated_site hproper (belongs_parse (kept?_mem hs))
    (hcollection ▸ (by decide : Collection.services ∈ Collection.annotated))
    ⟨.english, source.toList⟩
  rw [Site.Annotated, hkind, hvalue] at hannotated
  obtain ⟨hlist, -⟩ := hannotated
  have herrors : (parse source).errors source = [] := by decide +kernel
  refine ⟨herrors, _, buildModel_eq .english source, v, hv, hlist, s, hs, hvalue, hnone, ?_⟩
  intro hnotes
  have hother := hnotes.list
  rw [hnone, hlist] at hother
  cases hother

end DomainModel
