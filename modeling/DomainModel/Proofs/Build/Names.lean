/-
Names of a built document have no dots.

A name is an identifier of the text, or empty where the text has none.  So the names of
declarations and of their fields can be steps of a path, and since collections and
constructs hold no name twice, what is built is fit for classification
(`declarations_model`).
-/
import DomainModel.Proofs.Build.Document
import DomainModel.Proofs.Check.Classification
import DomainModel.Proofs.Grammar.Lossless

namespace DomainModel

open Direct

/-! ### Identifiers -/

/-- No identifier in a tree holds a dot. -/
def Tree.Plain (t : Tree) : Prop := ∀ token ∈ t.leaves, token.kind = .ident → Dotless token.text

namespace Tree

theorem plain_parse (source : String) : (parse source).tree.Plain := by
  intro token htoken hkind
  rw [leaves_parse] at htoken
  exact scan_ident_dotless htoken hkind

theorem Plain.part {s t : Tree} (h : t.Plain) (hpart : s.Part t) : s.Plain := by
  obtain ⟨before, after, hsplit⟩ := hpart.leaves_split
  intro token htoken
  refine h token ?_
  rw [hsplit]
  exact List.mem_append_left _ (List.mem_append_right _ htoken)

theorem part_of_mem {s t : Tree} (h : s ∈ t.children) : s.Part t := by
  cases t with
  | leaf => exact nomatch h
  | node kind children => exact .inside h .whole

/-- A tree stands in another one: it is a part of one of its children. -/
def Inside (t root : Tree) : Prop := ∃ child ∈ root.children, t.Part child

theorem Inside.part {t root : Tree} (h : t.Inside root) : t.Part root := by
  obtain ⟨child, hchild, hpart⟩ := h
  exact hpart.trans (part_of_mem hchild)

/-- What stands in a part of a tree stands in the tree. -/
theorem inside_of_mem {t owner root : Tree} (h : owner.Part root) (ht : t ∈ owner.children) :
    t.Inside root := by
  cases h with
  | whole => exact ⟨t, ht, .whole⟩
  | inside hmem hpart => exact ⟨_, hmem, (part_of_mem ht).trans hpart⟩

theorem child?_spec {t child : Tree} {kind : NodeKind} (h : t.child? kind = some child) :
    child ∈ t.children ∧ child.kind? = some kind := by
  have hnode : child.isNode kind = true := List.find?_some h
  exact ⟨List.mem_of_find?_eq_some h, beq_iff_eq.mp hnode⟩

theorem childToken?_spec {t : Tree} {kind : TokenKind} {token : Token}
    (h : t.childToken? kind = some token) : .leaf token ∈ t.children ∧ token.kind = kind := by
  rw [childToken?] at h
  obtain ⟨leaf, hleaf, hsome⟩ := List.mem_filterMap.mp (List.mem_of_find?_eq_some h)
  refine ⟨?_, by simpa using List.find?_some h⟩
  cases leaf with
  | node => exact nomatch hsome
  | leaf token' =>
      obtain rfl := Option.some.inj hsome
      exact hleaf

theorem Plain.identifier? {t : Tree} (h : t.Plain) : ∀ name ∈ t.identifier?, Dotless name := by
  intro name hname
  obtain ⟨token, htoken, rfl⟩ := Option.map_eq_some_iff.mp hname
  obtain ⟨hmem, hkind⟩ := childToken?_spec htoken
  exact h.part (part_of_mem hmem) token (List.mem_singleton_self _) hkind

theorem dotless_getD {name : Option String} (h : ∀ n ∈ name, Dotless n) :
    Dotless (name.getD "") := by
  cases name with
  | none => decide
  | some n => exact h n rfl

/-- A node of one identifier has that as its word. -/
theorem word?_word {kind : NodeKind} {token : Token} (h : token.kind = .ident) :
    (Tree.node kind [.leaf token]).word? = some token.text := by
  have htrivia : (!token.isTrivia) = true := by rw [Token.isTrivia, h]; rfl
  show ([token].find? _).map _ = _
  rw [List.find?_cons, htrivia]
  rfl

end Tree

/-- A node of a kind that is one identifier. -/
theorem Shaped.word {within kind : NodeKind} {t : Tree} (h : Shaped within t)
    (hkind : t.kind? = some kind) (hword : kind ∈ NodeKind.words) :
    ∃ token, t = .node kind [.leaf token] ∧ token.kind = .ident := by
  cases h with
  | leaf => exact nomatch hkind
  | node _ _ hone _ =>
      obtain rfl := Option.some.inj hkind
      obtain ⟨token, rfl, hident⟩ := hone hword
      exact ⟨token, rfl, hident⟩

theorem Shaped.child {within : NodeKind} {t u : Tree} (h : Shaped within t) (hu : u ∈ t.children) :
    ∃ within, Shaped within u := by
  cases h with
  | leaf => exact nomatch hu
  | node _ _ _ hparts => exact ⟨_, hparts u hu⟩

/-- Whatever is in a tree that keeps to the table keeps to it. -/
theorem Shaped.part {s t : Tree} (hpart : s.Part t) :
    ∀ {within : NodeKind}, Shaped within t → ∃ within, Shaped within s := by
  induction hpart with
  | whole => exact fun h => ⟨_, h⟩
  | inside hmem _ ih =>
      intro within h
      obtain ⟨_, hchild⟩ := h.child hmem
      exact ih hchild

/-- The name of a construct has no dots. -/
theorem Tree.Plain.nameOrEmpty {within : NodeKind} {t : Tree} (h : t.Plain)
    (hshaped : Shaped within t) : Dotless t.nameOrEmpty := by
  refine dotless_getD fun name hname => ?_
  obtain ⟨child, hchild, hword⟩ := Option.bind_eq_some_iff.mp hname
  obtain ⟨hmem, hkind⟩ := child?_spec hchild
  obtain ⟨within, hpart⟩ := hshaped.child hmem
  obtain ⟨token, rfl, hident⟩ := hpart.word hkind (by decide)
  obtain rfl := Option.some.inj ((word?_word hident).symm.trans hword)
  exact h.part (part_of_mem hmem) token (List.mem_singleton_self _) hident

/-! ### Constructs -/

/-- A stored construct and what it stands in are parts of the tree. -/
theorem site_part (t : Tree) : ∀ {inside : Option Collection} {parent : Option Tree},
    ∀ s ∈ sitesAfter inside parent t,
      s.node.Part t ∧ (s.parent = parent ∨ ∃ owner, s.parent = some owner ∧ owner.Part t) := by
  induction t using Tree.induct with
  | leaf => exact fun _ hs => nomatch hs
  | node kind children ih =>
      intro inside parent s hs
      rw [sitesAfter, List.mem_append, sitesAfterAll_eq, List.mem_flatMap] at hs
      rcases hs with ⟨t, ht, hs⟩ | hs
      · obtain ⟨hnode, hparent⟩ := ih t ht s hs
        refine ⟨.inside ht hnode, .inr ?_⟩
        rcases hparent with hparent | ⟨owner, howner, hpart⟩
        · exact ⟨_, hparent, .whole⟩
        · exact ⟨owner, howner, .inside ht hpart⟩
      · obtain ⟨c, -, rfl⟩ := List.mem_map.mp hs
        exact ⟨.whole, .inl rfl⟩

theorem site_dotless {within : NodeKind} {t : Tree} (hshaped : Shaped within t) (hplain : t.Plain)
    {s : Site} (hs : s ∈ sitesAfter none none t) : Dotless s.name := by
  obtain ⟨hnode, hparent⟩ := site_part t s hs
  have hproper : s.Proper := proper_of_mem hshaped hs
  obtain ⟨-, ⟨within, hnodeShaped⟩, -, -⟩ := hproper
  have hname : Dotless s.node.nameOrEmpty := (hplain.part hnode).nameOrEmpty hnodeShaped
  rw [Site.name]
  split
  · refine Tree.dotless_getD fun name hname => ?_
    obtain ⟨type, htype, hident⟩ := Option.bind_eq_some_iff.mp hname
    obtain ⟨owner, howner, hchild⟩ := Option.bind_eq_some_iff.mp htype
    rcases hparent with hnone | ⟨owner', howner', hpart⟩
    · exact nomatch hnone.symm.trans howner
    · obtain rfl := Option.some.inj (howner'.symm.trans howner)
      have hplainType := (hplain.part hpart).part (Tree.part_of_mem (Tree.child?_spec hchild).1)
      exact hplainType.identifier? name hident
  · exact hname

/-- The constructs of a collection with fields keep a mapping of fields. -/
theorem fields_slot {inside : Option Collection} {kind : NodeKind} {c : Collection}
    (hc : c ∈ Collection.withFields) (h : collectionOf inside kind = some c) (t : Tree) :
    ⟨"fields", .field, fieldEntry⟩ ∈ memberSlots t kind := by
  cases kind <;> first
    | exact List.mem_singleton_self _
    | exact absurd h.symm (Option.some_ne_none c)
    | obtain rfl := Option.some.inj h
      exact absurd hc (by decide)

/-- What is in a collection comes from a construct. -/
theorem site_of_mem {input : BuildInput} {within : NodeKind} {t : Tree} {c : Collection}
    (hshaped : Shaped within t) (hc : c ≠ .relationships) {e : String × Value}
    (he : e ∈ (draft input t).document.collection c) :
    ∃ s ∈ sitesAfter none none t, s.collection = c ∧ s.name = e.1 ∧ s.value input = e.2 := by
  have harranged := arranged_collection input hshaped hc
  have hget := Dict.get?_of_mem harranged.nodup he
  rw [harranged.last] at hget
  have hmem := List.mem_reverse.mp (Dict.mem_of_get? hget)
  obtain ⟨s, hs, heq⟩ := List.mem_map.mp hmem
  obtain ⟨hs, hcollection⟩ := List.mem_filter.mp hs
  exact ⟨s, hs, of_decide_eq_true hcollection, congrArg Prod.fst heq, congrArg Prod.snd heq⟩

/-- What stands in the body of a construct is a part of it. -/
theorem ownBody_part {within kind : NodeKind} {t u : Tree} (hshaped : Shaped within t)
    (hu : u ∈ ownBody t kind) : u.Part t ∧ ∃ within, Shaped within u := by
  have hbody : ∀ body : NodeKind, u ∈ ((t.child? body).map Tree.children).getD [] →
      u.Part t ∧ ∃ within, Shaped within u := by
    intro body hin
    cases hchild : t.child? body with
    | none =>
        rw [hchild] at hin
        exact nomatch hin
    | some child =>
        rw [hchild] at hin
        have hmem := (Tree.child?_spec hchild).1
        obtain ⟨within, hchildShaped⟩ := hshaped.child hmem
        refine ⟨?_, hchildShaped.child hin⟩
        cases t with
        | leaf => exact nomatch hmem
        | node kind children => exact .inside hmem (Tree.part_of_mem hin)
  have hself : u ∈ t.children → u.Part t ∧ ∃ within, Shaped within u :=
    fun hu => ⟨Tree.part_of_mem hu, hshaped.child hu⟩
  cases kind <;> first
    | exact hself hu
    | exact hbody _ hu

/-- **What is built can be classified**: names are without dots, and none occurs twice. -/
theorem declarations_draft {within : NodeKind} {t : Tree} (input : BuildInput)
    (hshaped : Shaped within t) (hplain : t.Plain) {c : Collection}
    (hc : c ∈ Collection.withFields) :
    Classification.Declarations ((draft input t).document.collection c) := by
  have hrel : c ≠ .relationships := fun heq => absurd (heq ▸ hc) (by decide)
  refine ⟨(arranged_collection input hshaped hrel).nodup, ?_, ?_⟩
  · intro name hname
    obtain ⟨e, he, rfl⟩ := List.mem_map.mp hname
    obtain ⟨s, hs, -, hname, -⟩ := site_of_mem hshaped hrel he
    exact hname ▸ site_dotless hshaped hplain hs
  · intro e he
    obtain ⟨s, hs, hcollection, -, hvalue⟩ := site_of_mem hshaped hrel he
    have hproper : s.Proper := proper_of_mem hshaped hs
    obtain ⟨inside, hplace⟩ := hproper.place
    obtain ⟨fs, hfs, harranged⟩ := hproper.members input
      (fields_slot hc (hplace.trans (congrArg some hcollection)) s.node)
    refine ⟨fs, hvalue ▸ hfs, harranged.nodup, fun key hkey => ?_⟩
    rw [harranged.order, List.mem_eraseDups] at hkey
    obtain ⟨field, hfield, rfl⟩ := List.mem_map.mp hkey
    obtain ⟨within, hnode⟩ := hproper.shaped
    obtain ⟨hpart, within, hfieldShaped⟩ := ownBody_part hnode (List.mem_filter.mp hfield).1
    exact ((hplain.part (site_part t s hs).1).part hpart).nameOrEmpty hfieldShaped

/-- The model of a text can be classified. -/
theorem declarations_model (naming : Naming) (source : String) : ∀ c ∈ Collection.withFields,
    Classification.Declarations ((Direct.model naming source).document.collection c) :=
  fun _ hc => declarations_draft ⟨naming, source.toList⟩ (shaped_parse source)
    (Tree.plain_parse source) hc

end DomainModel
