/-
A document and its index speak of the same constructs.

What is stored under a name and what is recorded for its path come from one construct, unless
it contains a construct of its own name: nodes are stored on leaving a construct and spans
recorded on entering it, so then the outer node stays with the inner span
(`location_of_blocks`).  For all others `buildModel_coherent` says where the path leads:
to the stretch that the construct takes up, and with `.name` behind it to the part that names
it.  That part is the name itself but for a block of fields, which is named by the type of its
field, and where that is the type of an array its brackets belong to the part.
-/
import DomainModel.Proofs.Build.Kept
import DomainModel.Proofs.Grammar.Origin

namespace DomainModel

open Direct
open DomainModel.Path (Under steps)
open Grammar (needs needed typeForm leaf_of_nestedField)

/-! ### Parts of a text -/

theorem Tree.range?_of_mem {t : Tree} {token : Token} (h : token ∈ t.leaves) :
    ∃ r, t.range? = some r := by
  obtain ⟨first, hfirst⟩ : ∃ first, t.leaves.head? = some first :=
    ⟨_, List.head?_eq_some_head (List.ne_nil_of_mem h)⟩
  obtain ⟨last, hlast⟩ : ∃ last, t.leaves.getLast? = some last :=
    ⟨_, List.getLast?_eq_some_getLast (List.ne_nil_of_mem h)⟩
  exact ⟨⟨first.start, last.stop⟩, by rw [Tree.range?, hfirst, hlast]; rfl⟩

theorem Tree.Part.mem_leaves {s t : Tree} (h : s.Part t) {token : Token} (hs : token ∈ s.leaves) :
    token ∈ t.leaves := by
  obtain ⟨before, after, hsplit⟩ := h.leaves_split
  rw [hsplit]
  exact List.mem_append_left _ (List.mem_append_right _ hs)

theorem Tree.mem_leaves {t : Tree} {token : Token} (h : .leaf token ∈ t.children) :
    token ∈ t.leaves :=
  (Tree.part_of_mem h).mem_leaves (List.mem_singleton_self _)

theorem Tree.text_word {kind : NodeKind} {token : Token} :
    (Tree.node kind [.leaf token]).text = token.text := by
  apply String.toList_inj.mp
  rw [Tree.text_toList]
  exact List.append_nil _

theorem Tree.hasBrackets_word {kind : NodeKind} {token : Token} (h : token.kind = .ident) :
    (Tree.node kind [.leaf token]).hasBrackets = false := by
  show ([token].find? _).isSome = _
  rw [List.find?_cons, h]
  rfl

/-- **In the range of a part stands the text of the part.** -/
theorem text_of_range {source : String} {t : Tree} (h : Piece source t) {r : Range}
    (hr : t.range? = some r) : String.ofList (Source.textIn source.toList r) = t.text := by
  obtain ⟨before, after, hsplit⟩ := h.leaves_split
  obtain ⟨-, rfl⟩ := range?_eq (contiguous_parse source) hsplit hr
  have hsource : source.toList = charsOf before ++ charsOf t.leaves ++ charsOf after := by
    rw [← scan_chars, ← leaves_parse, hsplit, charsOf_append, charsOf_append]
  have hfront : (parse source).tree.leaves = before ++ (t.leaves ++ after) := by
    rw [hsplit, List.append_assoc]
  rw [Range.map, offset_front hfront, ← List.length_append, offset_front hsplit, charsOf_append,
    Source.textIn_eq hsource, ← Tree.text_toList, String.ofList_toList]

/-! ### Where a construct stands and what names it -/

/-- The part that names a construct: for a block of fields it is the type of the field. -/
def Direct.label? (parent : Option Tree) (kind : NodeKind) (t : Tree) : Option Tree :=
  match kind with
  | .nestedField => parent.bind (·.child? .fieldType)
  | _ => t.child? .name

/-- The stretch that a construct takes up: a block of fields begins with the type it is for. -/
def Direct.extent? (parent : Option Tree) (kind : NodeKind) (t : Tree) : Option Range :=
  match kind with
  | .nestedField => do
    let type ← (label? parent kind t).bind Tree.range?
    let block ← t.range?
    return ⟨type.start, block.stop⟩
  | _ => t.range?

/-- A part of a text that names something.  But for brackets it is the name. -/
structure IsLabel (source name : String) (label : Tree) : Prop where
  part : Piece source label
  word : ∃ token, token ∈ label.leaves
  text : label.hasBrackets = false → label.text = name

section
variable {source : String}

theorem label_of_name (hnone : (parse source).complaints = []) {within kind : NodeKind} {t : Tree}
    (hpart : Piece source t) (hshaped : Shaped within t) (hkind : t.kind? = some kind)
    (hneed : .name ∈ needs kind) :
    ∃ label, t.child? .name = some label ∧ IsLabel source t.nameOrEmpty label := by
  obtain ⟨label, hlabel⟩ := needed hnone hpart hkind hneed
  obtain ⟨hmem, hname⟩ := Tree.child?_spec hlabel
  obtain ⟨_, hchild⟩ := hshaped.child hmem
  obtain ⟨token, rfl, hident⟩ := hchild.word hname (by decide)
  refine ⟨_, hlabel, hpart.child hmem, ⟨token, List.mem_singleton_self _⟩, fun _ => ?_⟩
  rw [Tree.nameOrEmpty, Tree.name?, Tree.childWord?, hlabel, Option.bind_some,
    Tree.word?_word hident, Tree.text_word]
  rfl

theorem label_of_type (hnone : (parse source).complaints = []) {children : List Tree}
    (hpart : Piece source (.node .field children)) :
    ∃ type, (Tree.node .field children).child? .fieldType = some type ∧
      IsLabel source (type.identifier?.getD "") type := by
  obtain ⟨type, htype⟩ := needed hnone hpart rfl (by decide : NodeKind.fieldType ∈ needs .field)
  obtain ⟨hmem, hkind⟩ := Tree.child?_spec htype
  cases type with
  | leaf => exact nomatch hkind
  | node kind parts =>
      obtain rfl := Option.some.inj hkind
      have hpiece := hpart.child hmem
      obtain ⟨name, hident, hform⟩ := typeForm hpiece
      have hleaf : Tree.leaf name ∈ parts := by
        cases hform <;> simp
      refine ⟨_, htype, hpiece, ⟨name, Tree.mem_leaves hleaf⟩, fun hplain => ?_⟩
      rw [hform.identifier? hident, hform.eq_of_hasBrackets hplain, Tree.text_word]
      rfl

/-- A block of fields stands in the field that it is stored for. -/
theorem site_belongs (t : Tree) : ∀ {within : NodeKind} {inside : Option Collection}
    {parent : Option Tree}, Shaped within t → Piece source t →
    (t.isNode .nestedField = true → Belongs source parent t) →
    ∀ s ∈ sitesAfter inside parent t, s.kind = .nestedField → Belongs source s.parent s.node := by
  induction t using Tree.induct with
  | leaf => exact fun _ _ _ _ hs => nomatch hs
  | node kind children ih =>
      intro within inside parent hshaped hpiece hblock s hs hkind
      rw [sitesAfter, List.mem_append, sitesAfterAll_eq, List.mem_flatMap] at hs
      rcases hs with ⟨u, hu, hs⟩ | hs
      · obtain ⟨_, hpart⟩ := hshaped.child hu
        exact ih u hu hpart (hpiece.child hu) (belongs_child hshaped hpiece hu) s hs hkind
      · obtain ⟨c, -, rfl⟩ := List.mem_map.mp hs
        exact hblock (beq_iff_eq.mpr (congrArg some hkind))

theorem belongs_parse {s : Site} (hs : s ∈ sitesAfter none none (parse source).tree)
    (hkind : s.kind = .nestedField) : Belongs source s.parent s.node :=
  site_belongs _ (shaped_parse source) .whole (fun h => nomatch h) s hs hkind

theorem label?_of_ne {parent : Option Tree} {kind : NodeKind} (h : kind ≠ .nestedField) (t : Tree) :
    label? parent kind t = t.child? .name ∧ extent? parent kind t = t.range? := by
  cases kind <;> first
    | exact ⟨rfl, rfl⟩
    | exact absurd rfl h

/-- The constructs with paths need names, but for blocks of fields. -/
theorem name_needed {inside : Option Collection} {kind : NodeKind} {c : Collection}
    (hc : c ∈ Collection.located) (h : collectionOf inside kind = some c) :
    kind = .nestedField ∨ kind ≠ .nestedField ∧ .name ∈ needs kind := by
  cases kind <;> first
    | exact .inl rfl
    | exact .inr (by decide)
    | exact absurd h.symm (Option.some_ne_none c)
    | obtain rfl := Option.some.inj h
      exact absurd hc (by decide)

theorem extent_of_name {parent : Option Tree} {kind : NodeKind} (hkind : kind ≠ .nestedField)
    {t label : Tree} {name : String} (hlabel : t.child? .name = some label)
    (h : IsLabel source name label) : ∃ range, extent? parent kind t = some range := by
  obtain ⟨token, htoken⟩ := h.word
  rw [(label?_of_ne hkind t).2]
  exact Tree.range?_of_mem ((Tree.part_of_mem (Tree.child?_spec hlabel).1).mem_leaves htoken)

theorem extent_of_block {children : List Tree} {block type : Tree} {name : String}
    (hblock : Piece source block) (hkind : block.kind? = some .nestedField)
    (htype : (Tree.node .field children).child? .fieldType = some type)
    (h : IsLabel source name type) :
    ∃ range, extent? (some (.node .field children)) .nestedField block = some range := by
  obtain ⟨parts, rfl⟩ := Tree.exists_node hkind
  obtain ⟨brace, hbrace⟩ := leaf_of_nestedField hblock
  obtain ⟨token, htoken⟩ := h.word
  obtain ⟨r, hr⟩ := Tree.range?_of_mem htoken
  obtain ⟨r', hr'⟩ := Tree.range?_of_mem (t := .node .nestedField parts) (Tree.mem_leaves hbrace)
  refine ⟨⟨r.start, r'.stop⟩, ?_⟩
  show (((Tree.node .field children).child? .fieldType).bind _).bind _ = _
  rw [htype, Option.bind_some, hr, Option.bind_some, hr']
  rfl

/-- **Every construct with a path has a part that names it and takes up a stretch.** -/
theorem site_label (hnone : (parse source).complaints = []) {s : Site}
    (hs : s ∈ sitesAfter none none (parse source).tree) (hc : s.collection ∈ Collection.located) :
    ∃ label, label? s.parent s.kind s.node = some label ∧ IsLabel source s.name label ∧
      ∃ range, extent? s.parent s.kind s.node = some range := by
  have hproper := proper_of_mem (shaped_parse source) hs
  obtain ⟨hpart, -⟩ := site_part _ s hs
  obtain ⟨within, hshaped⟩ := hproper.shaped
  obtain ⟨inside, hplace⟩ := hproper.place
  rcases name_needed hc hplace with hnested | ⟨hkind, hneed⟩
  · obtain ⟨-, children, hparent, -, howner, -⟩ := belongs_parse hs hnested
    obtain ⟨type, htype, hlabel⟩ := label_of_type hnone howner
    rw [hnested, hparent, Site.name, hnested, hparent]
    refine ⟨type, htype, ?_, extent_of_block hpart (hnested ▸ hproper.kind) htype hlabel⟩
    rwa [Option.bind_some, htype, Option.bind_some]
  · obtain ⟨label, hchild, hlabel⟩ := label_of_name hnone hpart hshaped hproper.kind hneed
    have hname : s.name = s.node.nameOrEmpty := by
      rw [Site.name]
      split
      · exact absurd ‹_› hkind
      · rfl
    exact ⟨label, (label?_of_ne hkind _).1.trans hchild, hname ▸ hlabel,
      extent_of_name hkind hchild hlabel⟩

/-! ### What is recorded leads there -/

/-- A block and the type in front of it cover the stretch from one end to the other. -/
theorem cover_block {parent : Option Tree} {block type : Tree} {r s : Range}
    (h : Belongs source parent block) (htype : parent.bind (·.child? .fieldType) = some type)
    (hr : type.range? = some r) (hs : block.range? = some s) : r.cover s = ⟨r.start, s.stop⟩ := by
  obtain ⟨hblock, children, rfl, hmem, howner, hturn⟩ := h
  obtain ⟨n, hn, hle, hfirst⟩ := type_before_block htype hmem hblock hturn
  obtain ⟨before, after, hsplit⟩ := howner.leaves_split
  obtain ⟨hstart, hstop⟩ := range?_mono (contiguous_parse source) hsplit hle hfirst hn hr hs
  rw [Range.cover, Nat.min_eq_left hstart, Nat.max_eq_right hstop]

theorem self_eq_append {path tail : String} : path = path ++ tail ↔ tail = "" := by
  rw [eq_comm]
  simp

/-- **A construct records its stretch for its path, and the part that names it behind.** -/
theorem recorded_opening {naming : Naming} {home : Option Home} {parent : Option Tree}
    {kind : NodeKind} {t label : Tree} {o : Opening} {range r : Range}
    (ho : opening ⟨naming, source.toList⟩ home parent kind t = some o)
    (hblock : kind = .nestedField → Belongs source parent t)
    (hrange : extent? parent kind t = some range) (hlabel : label? parent kind t = some label)
    (hr : label.range? = some r) :
    Records.span? o.records o.scope.path = some (Source.span source.toList range) ∧
      Records.span? o.records (o.scope.path ++ ".name") = some (Source.span source.toList r) := by
  have hlocate : ∀ {part : Tree} {r}, part.range? = some r →
      BuildInput.locate ⟨naming, source.toList⟩ (some part) =
        some (Source.span source.toList r) := by
    intro part r hpart
    rw [BuildInput.locate, Option.bind_some, hpart]
    rfl
  have hname := hlocate hr
  by_cases hnested : kind = .nestedField
  · subst hnested
    obtain ⟨owner, home, rfl, rfl, rfl⟩ := opening_block ho
    have htype : owner.child? .fieldType = some label := hlabel
    obtain ⟨first, hfirst, hrest⟩ := Option.bind_eq_some_iff.mp hrange
    obtain ⟨last, hlast, hrest⟩ := Option.bind_eq_some_iff.mp hrest
    obtain rfl := Option.some.inj hrest
    obtain rfl : first = r := Option.some.inj <| hfirst.symm.trans <| by
      rw [hlabel]
      exact hr
    have hcover := cover_block (hblock rfl) htype hr hlast
    simp only [Build.nestedField]
    constructor <;> refine Records.span?_of_back ?_
    · simp [Records.span?, htype, hname, hlocate hlast, Build.coverOf, Source.cover_span, hcover]
    · simp [Records.span?, htype, hname]
  · rw [(label?_of_ne hnested t).2] at hrange
    rw [(label?_of_ne hnested t).1] at hlabel
    have hself := hlocate hrange
    cases kind
    case nestedField => exact absurd rfl hnested
    case field | serviceMethod | aggregateCommand =>
      obtain ⟨home, -, rfl⟩ := Option.map_eq_some_iff.mp ho
      simp only [Build.field, Build.serviceMethod, Build.aggregateCommand, Build.operation,
        Build.operationRecords, ← List.cons_append]
      constructor <;> refine Records.span?_of_back ?_ <;>
        simp [Records.span?, self_eq_append, hself, hlabel, hname]
    all_goals first
      | exact absurd ho.symm (Option.some_ne_none o)
      | obtain rfl := Option.some.inj ho
        simp [Build.api, Build.plugin, Build.declaration, Build.enumeration, Build.service,
          Build.legacyService, Build.serviceRecords, Build.aggregate, Records.span?,
          self_eq_append, hself, hlabel, hname]

/-- A path leads to the stretch of a construct, and with `.name` behind it to the part that
names it; but for brackets, what stands there is the name. -/
structure Model.Shows (m : Model) (source path name : String) (parent : Option Tree)
    (kind : NodeKind) (t : Tree) : Prop where
  extent : ∃ range, extent? parent kind t = some range ∧
    m.location? path = some (Source.span source.toList range)
  label : ∃ label span, label? parent kind t = some label ∧
    m.location? (path ++ ".name") = some span ∧
    String.ofList (Source.textIn source.toList span.range) = label.text ∧
    (label.hasBrackets = false → label.text = name)

section
variable {naming : Naming} {home : Option Home} {parent : Option Tree} {kind : NodeKind}
  {t label : Tree} {o : Opening} {name : String}

/-- Where all that a construct records for its path and its name counts, it is shown there. -/
theorem shows_of_opening (ho : opening ⟨naming, source.toList⟩ home parent kind t = some o)
    (hblock : kind = .nestedField → Belongs source parent t)
    (hextent : ∃ range, extent? parent kind t = some range)
    (hlabel : label? parent kind t = some label) (h : IsLabel source name label)
    (hpath : o.scope.path ≠ "")
    (hcounts : ∀ path ∈ [o.scope.path, o.scope.path ++ ".name"], ∀ span,
      Under (steps o.scope.path) path → (steps path).length ≤ (steps o.scope.path).length + 1 →
      Records.span? o.records path = some span →
        (Direct.model naming source).location? path = some span) :
    (Direct.model naming source).Shows source o.scope.path name parent kind t := by
  obtain ⟨range, hrange⟩ := hextent
  obtain ⟨token, htoken⟩ := h.word
  obtain ⟨r, hr⟩ := Tree.range?_of_mem htoken
  obtain ⟨hself, hname⟩ := recorded_opening ho hblock hrange hlabel hr
  have hsteps := Path.steps_dot ".name" "name" hpath rfl (by decide)
  refine ⟨⟨range, hrange, ?_⟩, label, Source.span source.toList r, hlabel, ?_,
    text_of_range h.part hr, h.text⟩
  · exact hcounts _ (List.mem_cons_self ..) _ (List.prefix_refl _) (Nat.le_succ _) hself
  · refine hcounts _ (List.mem_cons_of_mem _ (List.mem_singleton_self _)) _ ?_ ?_ hname
    · rw [Under, hsteps]
      exact List.prefix_append ..
    · rw [hsteps, List.length_append]
      exact Nat.le_refl _

end

section
variable {naming : Naming} {c : Collection} {name : String} {s : Site}

/-- **A kept construct is shown at its name**, unless it contains one of its own name. -/
theorem shows_kept (hnone : (parse source).complaints = []) (hc : c ∈ Collection.located)
    (h : kept? c name (parse source).tree = some s) (hrecurs : ¬s.Recurs) :
    (Direct.model naming source).Shows source (c.key ++ "." ++ name) name s.parent s.kind
      s.node := by
  obtain ⟨hcollection, hname, -⟩ := kept?_eq_some h
  obtain ⟨children, home, o, hstands, hcounts⟩ := location?_kept naming hc h hrecurs
  obtain ⟨label, hlabel, hnamed, hextent⟩ := site_label hnone (kept?_mem h) (hcollection ▸ hc)
  have hsteps := Path.steps_key c (dotless_kept h)
  rw [← hstands.path]
  refine shows_of_opening hstands.opening (belongs_parse (kept?_mem h)) hextent hlabel
    (hname ▸ hnamed) (hstands.path ▸ by simp) fun path _ span hunder hshort hspan => ?_
  rw [hstands.path, hsteps] at hunder hshort
  exact hcounts path span hunder hshort hspan

/-- **The last member of a name is shown at that name** in a kept construct. -/
theorem shows_member (hnone : (parse source).complaints = []) (hc : c ∈ Collection.located)
    (h : kept? c name (parse source).tree = some s) (hrecurs : ¬s.Recurs) {m : MemberSlot}
    (hm : m ∈ memberSlots s.node s.kind) (hkind : m.kind ∈ memberKinds) {front back : List Tree}
    {u : Tree} (hmembers : members s.node s.kind m = front ++ u :: back)
    (hlast : ∀ v ∈ back, v.nameOrEmpty ≠ u.nameOrEmpty) :
    (Direct.model naming source).Shows source
      (c.key ++ "." ++ name ++ "." ++ m.slot ++ "." ++ u.nameOrEmpty) u.nameOrEmpty none m.kind
      u := by
  have hu : u ∈ members s.node s.kind m :=
    hmembers ▸ List.mem_append_right _ (List.mem_cons_self ..)
  obtain ⟨hnode, hdotless, hpart, within, hshaped⟩ := dotless_member (kept?_mem h) hu
  obtain ⟨o, ho, -⟩ := opening_member ⟨naming, source.toList⟩ hkind
    ⟨c.key ++ "." ++ name, c⟩ none u
  obtain ⟨hpath, -, hslot⟩ := path_of_member hm hkind ho
  have hneeds : m.kind ≠ .nestedField ∧ .name ∈ needs m.kind :=
    (by decide : ∀ kind ∈ memberKinds, kind ≠ .nestedField ∧ .name ∈ needs kind) _ hkind
  obtain ⟨label, hlabel, hnamed⟩ :=
    label_of_name hnone hpart hshaped (beq_iff_eq.mp hnode) hneeds.2
  have hsteps := Path.steps_member c (dotless_kept h)
    ((by decide : ∀ slot ∈ ["fields", "methods", "commands"], Dotless slot) _ hslot) hdotless
  have hjoin : c.key ++ "." ++ name ++ "." ++ m.slot ++ "." ++ u.nameOrEmpty = o.scope.path := by
    rw [hpath]
    simp only [String.append_assoc]
  rw [hjoin]
  rw [← hpath] at hsteps
  refine shows_of_opening ho (fun hnested => absurd hnested hneeds.1)
    (extent_of_name hneeds.1 hlabel hnamed) ((label?_of_ne hneeds.1 u).1.trans hlabel) hnamed
    (hpath ▸ by simp) fun path _ span hunder hshort hspan => ?_
  rw [hsteps] at hunder hshort
  exact location?_member hc h hrecurs hm hkind hmembers hlast ho hunder (fun _ => hshort) hspan

end

/-! ### What a document holds -/

/-- The value that a collection gets under a name is that of the construct that is kept. -/
theorem get?_entries (input : BuildInput) (c : Collection) (t : Tree) (name : String) :
    Dict.get? (entries input c t).reverse name = (kept? c name t).map (Site.value input) := by
  rw [entries, ← List.map_reverse, Dict.get?_map, ← List.filter_reverse, List.find?_filter, kept?]
  refine congrArg (Option.map _) (congrArg (List.find? · _) (funext fun s => ?_))
  simp

/-- **What a collection holds under a name was built from the construct that is kept.** -/
theorem kept?_of_mem {input : BuildInput} {within : NodeKind} {t : Tree} (hshaped : Shaped within t)
    {c : Collection} (hc : c ≠ .relationships) {e : String × Value}
    (he : e ∈ (draft input t).document.collection c) :
    ∃ s, kept? c e.1 t = some s ∧ s.value input = e.2 := by
  have harranged := arranged_collection input hshaped hc
  have hget := Dict.get?_of_mem harranged.nodup he
  rw [harranged.last, get?_entries] at hget
  exact Option.map_eq_some_iff.mp hget

/-- What a slot holds under a name was built from the last member of that name. -/
theorem member_of_mem {s : Site} {m : MemberSlot} (hm : m ∈ memberSlots s.node s.kind)
    {d : Members} (hd : Dict.Arranged ((members s.node s.kind m).map Tree.nameOrEmpty)
      ((members s.node s.kind m).map m.entry) d) {f : String × Value} (hf : f ∈ d) :
    ∃ front u back, members s.node s.kind m = front ++ u :: back ∧ m.entry u = f ∧
      u.nameOrEmpty = f.1 ∧ ∀ v ∈ back, v.nameOrEmpty ≠ u.nameOrEmpty := by
  have hget := Dict.get?_of_mem hd.nodup hf
  rw [hd.last, ← List.map_reverse, Dict.get?_map, Option.map_eq_some_iff] at hget
  obtain ⟨u, hfind, hvalue⟩ := hget
  obtain ⟨hu, front, back, hsplit, hback⟩ := find?_reverse_eq_some hfind
  have hname : (m.entry u).1 = f.1 := of_decide_eq_true hu
  have hnames := memberSlots_entry hm
  refine ⟨front, u, back, hsplit, Prod.ext hname hvalue, hnames u ▸ hname, fun v hv heq => ?_⟩
  have hsame : (m.entry v).1 = f.1 := (hnames v).trans (heq.trans ((hnames u).symm.trans hname))
  exact hback v hv (decide_eq_true hsame)

/-- **A document and its index speak of the same constructs.**  In a text without errors, what
the document holds under a name was built from one construct, and unless that contains another
one of its own name, its path leads to where it stands and to its name.  Of its fields, methods
and commands the same is true. -/
theorem buildModel_coherent (naming : Naming) (source : String)
    (h : (parse source).errors source = []) :
    ∃ m, buildModel naming source = .ok m ∧
      ∀ c ∈ Collection.located, ∀ e ∈ m.document.collection c,
        ∃ s, kept? c e.1 (parse source).tree = some s ∧
          s.value ⟨naming, source.toList⟩ = e.2 ∧ (¬s.Recurs →
            m.Shows source (c.key ++ "." ++ e.1) e.1 s.parent s.kind s.node ∧
            ∀ slot ∈ memberSlots s.node s.kind, slot.kind ∈ memberKinds →
              ∃ d, e.2.get? slot.slot = some (.map d) ∧ ∀ f ∈ d,
                ∃ u ∈ members s.node s.kind slot, slot.entry u = f ∧
                  m.Shows source (c.key ++ "." ++ e.1 ++ "." ++ slot.slot ++ "." ++ f.1) f.1 none
                    slot.kind u) := by
  have hnone : (parse source).complaints = [] := List.map_eq_nil_iff.mp h
  refine ⟨_, buildModel_eq naming source, fun c hc e he => ?_⟩
  have hrel : c ≠ .relationships := by
    rintro rfl
    exact absurd hc (by decide)
  obtain ⟨s, hs, hvalue⟩ := kept?_of_mem (shaped_parse source) hrel he
  refine ⟨s, hs, hvalue, fun hrecurs =>
    ⟨shows_kept hnone hc hs hrecurs, fun slot hslot hkind => ?_⟩⟩
  have hproper := proper_of_mem (shaped_parse source) (kept?_mem hs)
  obtain ⟨d, hd, harranged⟩ := hproper.members ⟨naming, source.toList⟩ hslot
  refine ⟨d, hvalue ▸ hd, fun f hf => ?_⟩
  obtain ⟨front, u, back, hmembers, hentry, hname, hlast⟩ := member_of_mem hslot harranged hf
  rw [← hname]
  exact ⟨u, hmembers ▸ List.mem_append_right _ (List.mem_cons_self ..), hentry,
    shows_member hnone hc hs hrecurs hslot hkind hmembers hlast⟩

/-- A type that is declared in place is found from its name to the end of its block. -/
theorem buildModel_coherent_block :
    let source := "entity A \x7b b B \x7b c D \x7d \x7d"
    (parse source).errors source = [] ∧ ∃ m, buildModel .english source = .ok m ∧
      ∃ s, kept? .entities "B" (parse source).tree = some s ∧ ¬s.Recurs ∧
        extent? s.parent s.kind s.node = some ⟨13, 22⟩ ∧
        m.Shows source "entities.B" "B" s.parent s.kind s.node := by
  intro source
  have hnone : (parse source).errors source = [] := by decide +kernel
  obtain ⟨m, hm, hcoherent⟩ := buildModel_coherent .english source hnone
  obtain rfl := Except.ok.inj (hm.symm.trans (buildModel_eq .english source))
  have hkeys : "B" ∈ Dict.keys ((Direct.model .english source).document.collection .entities) := by
    decide +kernel
  obtain ⟨e, he, hname⟩ := List.mem_map.mp hkeys
  have hkept : ∀ s ∈ kept? .entities "B" (parse source).tree,
      ¬s.Recurs ∧ extent? s.parent s.kind s.node = some ⟨13, 22⟩ := by
    decide +kernel
  obtain ⟨s, hs, -, hshows⟩ := hcoherent .entities (by decide) e he
  rw [hname] at hs hshows
  obtain ⟨hrecurs, hextent⟩ := hkept s hs
  exact ⟨hnone, _, hm, s, hs, hrecurs, hextent, (hshows hrecurs).1⟩

/-- Blocks whose declarations are found elsewhere: of a declaration inside another one of its
name the document keeps the outer one and the index has the stretch of the inner one, and the
brackets behind a type that is declared in place count as part of its name. -/
theorem location_of_blocks :
    (let source := "entity A \x7b y A \x7b x String \x7d \x7d"
    (parse source).errors source = [] ∧ ∃ m, buildModel .english source = .ok m ∧
      (((Dict.get? m.document.entities "A").bind (·.get? "fields")).bind Value.map?).map
        Dict.keys = some ["y"] ∧
      ((kept? .entities "A" (parse source).tree).bind fun s =>
        extent? s.parent s.kind s.node) = some ⟨0, 29⟩ ∧
      m.location? "entities.A" = some (Source.span source.toList ⟨13, 27⟩)) ∧
    (let source := "entity C \x7b a B[] \x7b s String \x7d \x7d"
    (parse source).errors source = [] ∧ ∃ m, buildModel .english source = .ok m ∧
      Dict.keys m.document.entities = ["C", "B"] ∧
      (m.location? "entities.B.name").map
        (fun span => String.ofList (Source.textIn source.toList span.range)) = some "B[]") := by
  refine ⟨⟨by decide +kernel, _, buildModel_eq .english _, ?_, ?_, ?_⟩,
    by decide +kernel, _, buildModel_eq .english _, ?_, ?_⟩
  all_goals decide +kernel

end

end DomainModel
