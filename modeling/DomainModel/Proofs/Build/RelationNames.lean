/-
Which relationships have a name of their own.

A relationship is named after the entities at its ends and the fields that they get, and the
fields stand in braces, which no name holds.  So a field in front keeps two names apart, and
without one everything but the place of the line between the entities can be read off: `A_B`
to `C` and `A` to `B_C` are named alike.  `Ends.key_eq_iff` says that this is all that can
happen.

Of relationships that are named alike one stays, so a type has as many relationships as the
text gives it exactly if no two of them blur (`relationships_kept`).
-/
import Mathlib.Data.Finset.Card
import Mathlib.Data.List.Basic
import DomainModel.Proofs.Build.Relationships

namespace DomainModel

open Direct
open Grammar (needed needs)

/-! ### The ends of a relationship -/

/-- An end of a relationship as it is written: the entity there and the field it gets. -/
structure End where
  entity : Option String
  field : Option String
  deriving DecidableEq, Repr

/-- Both ends of a relationship, what stands in front of the word `to` first. -/
structure Ends where
  origin : End
  target : End
  deriving DecidableEq, Repr

/-- What is written at one side of a relationship. -/
def Tree.endAt (t : Tree) (kind : NodeKind) : End :=
  ⟨(t.child? kind).bind Tree.name?, (t.child? kind).bind Tree.injectedName?⟩

def Tree.ends (t : Tree) : Ends := ⟨t.endAt .relationshipFrom, t.endAt .relationshipTo⟩

/-- The relationship at a node, with the type that the group around it has. -/
def endsOf (parent : Option Tree) (kind : NodeKind) (t : Tree) : List (String × Ends) :=
  match kind with
  | .relationship =>
    [(((parent.filter (Tree.isNode .relationshipGroup)).bind Tree.name?).getD "", t.ends)]
  | _ => []

/-- The relationships of a type that a text writes, in order. -/
def writtenEnds (source type : String) : List Ends :=
  ((found endsOf none (parse source).tree).filter (·.1 = type)).map (·.2)

/-- The relationships of a type that a document keeps. -/
def Members.group (groups : Members) (type : String) : Members :=
  ((Dict.get? groups type).bind Value.map?).getD []

/-! ### Names of relationships -/

namespace End

/-- An end as it appears in a name. -/
def text : End → String
  | ⟨none, _⟩ => ""
  | ⟨some entity, none⟩ => entity
  | ⟨some entity, some field⟩ => entity ++ "\x7b" ++ field ++ "\x7d"

/-- An end without gaps: its names are words, and only an entity gets a field. -/
structure Proper (e : End) : Prop where
  entity : ∀ name ∈ e.entity, Lexer.isWord name.toList = true
  field : ∀ name ∈ e.field, Lexer.isWord name.toList = true
  owner : e.entity = none → e.field = none

/-- The entity, or nothing between quotes. -/
def front (e : End) : List Char := (e.entity.getD "").toList

/-- What an end adds behind its entity. -/
def back (e : End) : List Char :=
  (e.field.map fun field => '\x7b' :: (field.toList ++ ['\x7d'])).getD []

/-- Words have no braces. -/
theorem braceless {name : String} (h : Lexer.isWord name.toList = true) :
    '\x7b' ∉ name.toList ∧ '\x7d' ∉ name.toList :=
  ⟨fun hmem => absurd (Lexer.isWordPart_of_mem h hmem) (by decide),
    fun hmem => absurd (Lexer.isWordPart_of_mem h hmem) (by decide)⟩

theorem ne_of_isWord {name : String} (h : Lexer.isWord name.toList = true) : name ≠ "" := by
  rintro rfl
  exact absurd h (by decide)

/-- What comes in front of the first of a character, and what behind it. -/
theorem cut_unique {c : Char} {a b a' b' : List Char} (ha : c ∉ a) (ha' : c ∉ a')
    (heq : a ++ c :: b = a' ++ c :: b') : a = a' ∧ b = b' := by
  rcases List.append_eq_append_iff.mp heq with ⟨gap, rfl, hgap⟩ | ⟨gap, rfl, hgap⟩
  all_goals
    cases gap with
    | nil => simpa [eq_comm] using hgap
    | cons d gap =>
        obtain ⟨rfl, -⟩ := List.cons_eq_cons.mp hgap
        simp at ha ha'

section
variable {e e' : End}

theorem Proper.text_eq (h : e.Proper) : e.text.toList = e.front ++ e.back := by
  obtain ⟨entity, field⟩ := e
  cases entity with
  | none =>
      obtain rfl : field = none := h.owner rfl
      rfl
  | some entity => cases field <;> simp [text, front, back]

theorem back_of_none (h : e.field = none) : e.back = [] := by
  rw [back, h]
  rfl

theorem back_of_some {field : String} (h : e.field = some field) :
    e.back = '\x7b' :: (field.toList ++ ['\x7d']) := by
  rw [back, h]
  rfl

theorem Proper.opening_front (h : e.Proper) : '\x7b' ∉ e.front := by
  rw [front]
  cases hentity : e.entity with
  | none => exact List.not_mem_nil
  | some entity => exact (braceless (h.entity entity hentity)).1

/-- Entities have names, so what is in front says which entity it is. -/
theorem Proper.entity_eq (h : e.Proper) (h' : e'.Proper) (heq : e.front = e'.front) :
    e.entity = e'.entity := by
  have hstring : e.entity.getD "" = e'.entity.getD "" := String.toList_inj.mp heq
  cases hentity : e.entity <;> cases hentity' : e'.entity <;> rw [hentity, hentity'] at hstring
  case none.some name => exact absurd hstring.symm (ne_of_isWord (h'.entity name hentity'))
  case some.none name => exact absurd hstring (ne_of_isWord (h.entity name hentity))
  case some.some => exact congrArg some hstring

/-- Where an end is at the end of a name, its field is what stands in the braces there. -/
theorem field_eq {a a' : List Char} (ha : '\x7b' ∉ a) (ha' : '\x7b' ∉ a')
    (heq : a ++ e.back = a' ++ e'.back) : a = a' ∧ e.field = e'.field := by
  cases hfield : e.field with
  | none =>
      rw [back_of_none hfield, List.append_nil] at heq
      cases hfield' : e'.field with
      | none =>
          rw [back_of_none hfield', List.append_nil] at heq
          exact ⟨heq, rfl⟩
      | some field =>
          rw [back_of_some hfield'] at heq
          exact absurd (heq ▸ by simp) ha
  | some field =>
      rw [back_of_some hfield] at heq
      cases hfield' : e'.field with
      | none =>
          rw [back_of_none hfield', List.append_nil] at heq
          exact absurd (heq ▸ by simp) ha'
      | some field' =>
          rw [back_of_some hfield'] at heq
          obtain ⟨hfront, hback⟩ := cut_unique ha ha' heq
          exact ⟨hfront, congrArg some (String.toList_inj.mp (List.append_cancel_right hback))⟩

theorem Proper.eq_of_text (h : e.Proper) (h' : e'.Proper)
    (heq : e.front ++ e.back = e'.front ++ e'.back) : e = e' := by
  obtain ⟨hfront, hfield⟩ := field_eq h.opening_front h'.opening_front heq
  have hentity := h.entity_eq h' hfront
  cases e
  cases e'
  exact End.mk.injEq .. ▸ ⟨hentity, hfield⟩

end

end End

namespace Ends

/-- The name of a relationship of a type. -/
def key (type : String) (e : Ends) : String :=
  type ++ "_" ++ e.origin.text ++ "_" ++ e.target.text

structure Proper (e : Ends) : Prop where
  origin : e.origin.Proper
  target : e.target.Proper

/-- Two relationships whose first entity gets no field, and whose entities and the line
between them spell the same. -/
def Blurs (e e' : Ends) : Prop :=
  e.origin.field = none ∧ e'.origin.field = none ∧ e.target.field = e'.target.field ∧
    e.origin.entity.getD "" ++ "_" ++ e.target.entity.getD "" =
      e'.origin.entity.getD "" ++ "_" ++ e'.target.entity.getD ""

instance (e e' : Ends) : Decidable (e.Blurs e') := inferInstanceAs (Decidable (_ ∧ _))

section
variable {e e' : Ends} {type : String}

/-- What is in a name behind the type. -/
def body (e : Ends) : List Char :=
  e.origin.front ++ (e.origin.back ++ '_' :: (e.target.front ++ e.target.back))

theorem Proper.key_eq (h : e.Proper) : (e.key type).toList = type.toList ++ '_' :: e.body := by
  simp [key, body, h.origin.text_eq, h.target.text_eq]

theorem body_of_none (h : e.origin.field = none) :
    e.body = (e.origin.front ++ '_' :: e.target.front) ++ e.target.back := by
  simp [body, End.back_of_none h]

theorem body_of_some {field : String} (h : e.origin.field = some field) :
    e.body = e.origin.front ++ '\x7b' ::
      (field.toList ++ '\x7d' :: ('_' :: (e.target.front ++ e.target.back))) := by
  simp [body, End.back_of_some h]

theorem Proper.opening_line (h : e.Proper) :
    '\x7b' ∉ e.origin.front ++ '_' :: e.target.front := by
  simp [h.origin.opening_front, h.target.opening_front]

/-- A field in front is cut out by its braces, so it ends the entity and begins the rest. -/
theorem Proper.eq_of_field (h : e.Proper) (h' : e'.Proper) (heq : e.body = e'.body)
    {field : String} (hfield : e.origin.field = some field) : e = e' := by
  have hclosing := (End.braceless (h.origin.field field hfield)).2
  rw [body_of_some hfield] at heq
  cases hfield' : e'.origin.field with
  | some field' =>
      have hclosing' := (End.braceless (h'.origin.field field' hfield')).2
      rw [body_of_some hfield'] at heq
      obtain ⟨hfront, hrest⟩ := End.cut_unique h.origin.opening_front h'.origin.opening_front heq
      obtain ⟨hfields, htarget⟩ := End.cut_unique hclosing hclosing' hrest
      have htext := (List.cons_eq_cons.mp htarget).2
      have horigin : e.origin = e'.origin := h.origin.eq_of_text h'.origin <| by
        rw [hfront, End.back_of_some hfield, End.back_of_some hfield', hfields]
      cases e
      cases e'
      exact Ends.mk.injEq .. ▸ ⟨horigin, h.target.eq_of_text h'.target htext⟩
  | none =>
      -- The first brace of the other name is in its second end, and nothing stands behind it.
      exfalso
      rw [body_of_none hfield'] at heq
      cases htarget : e'.target.field with
      | none =>
          rw [End.back_of_none htarget, List.append_nil] at heq
          exact h'.opening_line (heq ▸ by simp)
      | some field' =>
          rw [End.back_of_some htarget] at heq
          obtain ⟨-, hrest⟩ := End.cut_unique h.origin.opening_front h'.opening_line heq
          obtain ⟨-, hnothing⟩ := End.cut_unique hclosing
            (End.braceless (h'.target.field field' htarget)).2 hrest
          exact List.cons_ne_nil _ _ hnothing

/-- **Names are alike only of relationships that blur.** -/
theorem Proper.key_eq_iff (h : e.Proper) (h' : e'.Proper) :
    e.key type = e'.key type ↔ e = e' ∨ e.Blurs e' := by
  rw [← String.toList_inj, h.key_eq, h'.key_eq, List.append_cancel_left_eq, List.cons_inj_right]
  constructor
  · intro heq
    cases hfield : e.origin.field with
    | some field => exact .inl (h.eq_of_field h' heq hfield)
    | none =>
        cases hfield' : e'.origin.field with
        | some field => exact .inl (h'.eq_of_field h heq.symm hfield').symm
        | none =>
            rw [body_of_none hfield, body_of_none hfield'] at heq
            obtain ⟨hline, htarget⟩ := End.field_eq h.opening_line h'.opening_line heq
            refine .inr ⟨hfield, hfield', htarget, String.toList_inj.mp ?_⟩
            simpa [End.front] using hline
  · rintro (rfl | ⟨hfield, hfield', htarget, hspelled⟩)
    · rfl
    · have hline : e.origin.front ++ '_' :: e.target.front =
          e'.origin.front ++ '_' :: e'.target.front := by
        simpa [End.front] using String.toList_inj.mpr hspelled
      have hback : e.target.back = e'.target.back := by rw [End.back, End.back, htarget]
      rw [body_of_none hfield, body_of_none hfield', hline, hback]

end

end Ends

/-! ### Groups -/

/-- A relationship changes the group of its type only. -/
theorem group_relate {groups : Members} (h : Grouped groups) (r : Build.Relation) (type : String) :
    (groups.relate r).group type =
      if type = r.type then Dict.insert r.name (.map r.node) (groups.group type)
      else groups.group type := by
  have hget : Dict.get? (groups.relate r) type = _ := Dict.get?_modify ..
  rw [Members.group, Members.group, hget, Dict.get?_reserve]
  by_cases htype : type = r.type
  · subst htype
    cases hvalue : Dict.get? groups r.type with
    | none => simp; rfl
    | some v =>
        obtain ⟨group, hgroup, -⟩ := h.groups _ (Dict.mem_of_get? hvalue)
        obtain rfl : v = .map group := hgroup
        simp [Value.map?]
  · simp [htype]

/-- **A group holds what was put into it**, one under each name. -/
theorem group_foldl (rs : List Build.Relation) (type : String) :
    (rs.foldl Members.relate []).group type =
      Dict.ofList ((rs.filter (·.type = type)).map fun r => (r.name, .map r.node)) := by
  induction rs using List.reverseRecOn with
  | nil => rfl
  | append_singleton rs r ih =>
      obtain ⟨hgrouped, -⟩ := relationship?_foldl rs type "" [] ⟨List.nodup_nil, nofun⟩
      rw [List.foldl_concat, group_relate hgrouped, ih, List.filter_append, List.map_append]
      by_cases htype : r.type = type
      · rw [if_pos htype.symm, List.filter_cons_of_pos (by simpa using htype)]
        exact (Dict.ofList_concat _ (r.name, Value.map r.node)).symm
      · rw [if_neg (Ne.symm htype), List.filter_cons_of_neg (by simpa using htype)]
        simp

/-! ### What a text writes -/

/-- Two ways of picking agree on a tree if they do on its nodes. -/
theorem found_congr {α β γ : Type} {pick : Option Tree → NodeKind → Tree → List α}
    {pick' : Option Tree → NodeKind → Tree → List β} {f : α → γ} {g : β → γ} (t : Tree) :
    ∀ {within : NodeKind} {parent : Option Tree}, Shaped within t →
      (∀ parent kind u, u.Part t → (∃ within, Shaped within u) → u.kind? = some kind →
        (pick parent kind u).map f = (pick' parent kind u).map g) →
      (found pick parent t).map f = (found pick' parent t).map g := by
  induction t using Tree.induct with
  | leaf => exact fun _ _ => rfl
  | node kind children ih =>
      intro within parent hshaped h
      rw [found, found, List.map_append, List.map_append,
        h parent kind _ .whole ⟨within, hshaped⟩ rfl, foundAll_eq, foundAll_eq, List.map_flatMap,
        List.map_flatMap]
      refine congrArg (_ ++ ·) (List.flatMap_congr fun t ht => ?_)
      obtain ⟨_, hpart⟩ := hshaped.child ht
      exact ih t ht hpart fun parent kind u hu => h parent kind u (.inside ht hu)

section
variable {source : String} {t : Tree} {within : NodeKind}

/-- Names are words. -/
theorem isWord_name (h : Piece source t) (hshaped : Shaped within t) {name : String}
    (hname : t.name? = some name) : Lexer.isWord name.toList = true := by
  obtain ⟨label, hlabel, hword⟩ := Option.bind_eq_some_iff.mp hname
  obtain ⟨hmem, hkind⟩ := Tree.child?_spec hlabel
  obtain ⟨_, hchild⟩ := hshaped.child hmem
  obtain ⟨token, rfl, hident⟩ := hchild.word hkind (by decide)
  obtain rfl : token.text = name :=
    Option.some.inj ((Tree.word?_word hident).symm.trans hword)
  have hscan : token ∈ scan source :=
    leaves_parse source ▸ (h.child hmem).mem_leaves (List.mem_singleton_self _)
  obtain ⟨c, cs, htext, hstart, hrest⟩ := (scan_spelled hscan).ident hident
  rw [htext, Lexer.isWord, hstart, hrest]
  rfl

section
variable (hnone : (parse source).complaints = []) (hpiece : Piece source t)
  (hshaped : Shaped within t)
include hnone hpiece hshaped

/-- In a text without complaints every end that is there names an entity. -/
theorem name_of_end {side : Build.Side} {e : Tree} (he : t.child? side.node = some e) :
    (e.child? .name).isSome = true ∧ ∃ name, e.name? = some name := by
  obtain ⟨hmem, hkind⟩ := Tree.child?_spec he
  obtain ⟨_, heshaped⟩ := hshaped.child hmem
  obtain ⟨label, hlabel⟩ := needed hnone (hpiece.child hmem) hkind
    (by cases side <;> decide : NodeKind.name ∈ needs side.node)
  obtain ⟨name, hname, -⟩ := bears_child (hpiece.child hmem) heshaped (by decide) hlabel
  exact ⟨by rw [hlabel]; rfl, name, hname⟩

theorem proper_endAt (side : Build.Side) : (t.endAt side.node).Proper := by
  refine ⟨fun name hname => ?_, fun name hname => ?_, fun habsent => ?_⟩
  · obtain ⟨e, he, hname⟩ := Option.bind_eq_some_iff.mp hname
    obtain ⟨hmem, -⟩ := Tree.child?_spec he
    obtain ⟨_, heshaped⟩ := hshaped.child hmem
    exact isWord_name (hpiece.child hmem) heshaped hname
  · obtain ⟨e, he, hinjected⟩ := Option.bind_eq_some_iff.mp hname
    obtain ⟨field, hfield, hname⟩ := Option.bind_eq_some_iff.mp hinjected
    obtain ⟨hmem, -⟩ := Tree.child?_spec he
    obtain ⟨_, heshaped⟩ := hshaped.child hmem
    obtain ⟨hinner, -⟩ := Tree.child?_spec hfield
    obtain ⟨_, hfshaped⟩ := heshaped.child hinner
    exact isWord_name ((hpiece.child hmem).child hinner) hfshaped hname
  · rw [Tree.endAt] at habsent ⊢
    cases he : t.child? side.node with
    | none => rfl
    | some e =>
        obtain ⟨-, name, hname⟩ := name_of_end hnone hpiece hshaped he
        rw [he, Option.bind_some, hname] at habsent
        exact nomatch habsent

/-- An end is named as it is written. -/
theorem endText_eq (side : Build.Side) :
    Build.endText (Build.endOn t side) = (t.endAt side.node).text := by
  rw [Tree.endAt]
  cases he : t.child? side.node with
  | none =>
      rw [Build.endOn, he]
      rfl
  | some e =>
      obtain ⟨hsome, name, hname⟩ := name_of_end hnone hpiece hshaped he
      have hend : Build.endOn t side = some e := Option.filter_eq_some_iff.mpr ⟨he, hsome⟩
      rw [hend, Option.bind_some, Option.bind_some, hname, Build.endText, Tree.nameOrEmpty, hname]
      cases e.injectedName? <;> rfl

theorem name_relation (input : BuildInput) (group : Option Tree) :
    (Build.relation input group t).name =
      t.ends.key (Build.relation input group t).type := by
  have horigin := endText_eq hnone hpiece hshaped .origin
  have htarget := endText_eq hnone hpiece hshaped .target
  show _ ++ "_" ++ Build.endText (Build.endOn t .origin) ++ "_" ++
    Build.endText (Build.endOn t .target) = _
  rw [horigin, htarget]
  rfl

end

end

/-- **A text without complaints names its relationships after their ends.** -/
theorem names_found (naming : Naming) {source : String} (hnone : (parse source).complaints = []) :
    (found (relationsOf ⟨naming, source.toList⟩) none (parse source).tree).map
        (fun r => (r.type, r.name)) =
      (found endsOf none (parse source).tree).map fun w => (w.1, w.2.key w.1) := by
  refine found_congr _ (shaped_parse source) fun parent kind u hu ⟨_, hshaped⟩ _ => ?_
  cases kind <;> first
    | rfl
    | exact congrArg (fun name => [(_, name)]) (name_relation hnone hu hshaped _ _)

/-- Type by type these are the names of what is written. -/
theorem names_written (naming : Naming) {source : String} (hnone : (parse source).complaints = [])
    (type : String) :
    ((found (relationsOf ⟨naming, source.toList⟩) none (parse source).tree).filter
        (·.type = type)).map (·.name) = (writtenEnds source type).map (Ends.key type) := by
  have hnames := congrArg (fun pairs => (pairs.filter (·.1 = type)).map (·.2))
    (names_found naming hnone)
  simp only [List.filter_map, List.map_map] at hnames
  refine hnames.trans ?_
  rw [writtenEnds, List.map_map]
  refine List.map_congr_left fun w hw => ?_
  have htype : w.1 = type := by simpa using (List.mem_filter.mp hw).2
  simp [htype]

theorem proper_writtenEnds {source type : String} (hnone : (parse source).complaints = []) :
    ∀ e ∈ writtenEnds source type, e.Proper := by
  intro e he
  obtain ⟨w, hw, rfl⟩ := List.mem_map.mp he
  obtain ⟨parent, kind, u, hpick, -, hu, ⟨_, hshaped⟩, -⟩ :=
    mem_found _ (shaped_parse source) w (List.mem_filter.mp hw).1
  cases kind <;> first
    | exact absurd hpick List.not_mem_nil
    | obtain rfl := List.mem_singleton.mp hpick
      exact ⟨proper_endAt hnone hu hshaped .origin, proper_endAt hnone hu hshaped .target⟩

theorem length_eraseDups_map {α : Type} [DecidableEq α] (f : α → String) (as : List α) :
    (as.map f).eraseDups.length = (as.toFinset.image f).card := by
  rw [← List.toFinset_card_of_nodup (nodup_eraseDups _)]
  refine congrArg Finset.card (Finset.ext fun name => ?_)
  simp

/-- **Of relationships that are named alike one stays, and named alike are those that blur.**
In a text without complaints a type keeps the names of what is written for it; two of these
names are the same only if the relationships are or if, without a field in front, their
entities spell the same with the line between them; and so none is lost just if none blur. -/
theorem relationships_kept (naming : Naming) (source : String)
    (h : (parse source).errors source = []) :
    ∃ m, buildModel naming source = .ok m ∧ ∀ type,
      Dict.keys (m.document.relationships.group type) =
        ((writtenEnds source type).map (Ends.key type)).eraseDups ∧
      (∀ e ∈ writtenEnds source type, ∀ e' ∈ writtenEnds source type,
        e.key type = e'.key type ↔ e = e' ∨ e.Blurs e') ∧
      ((m.document.relationships.group type).length = (writtenEnds source type).toFinset.card ↔
        ∀ e ∈ writtenEnds source type, ∀ e' ∈ writtenEnds source type, e.Blurs e' → e = e') := by
  have hnone : (parse source).complaints = [] := List.map_eq_nil_iff.mp h
  refine ⟨_, buildModel_eq naming source, fun type => ?_⟩
  have hproper : ∀ e ∈ writtenEnds source type, e.Proper := proper_writtenEnds hnone
  have hdocument : (Direct.model naming source).document.relationships =
      (found (relationsOf ⟨naming, source.toList⟩) none (parse source).tree).foldl
        Members.relate [] :=
    congrArg Document.relationships (draft_document ⟨naming, source.toList⟩ (shaped_parse source))
  have hkeys : Dict.keys ((Direct.model naming source).document.relationships.group type) =
      ((writtenEnds source type).map (Ends.key type)).eraseDups := by
    rw [hdocument, group_foldl, (Dict.arranged_ofList _).order, List.map_map,
      ← names_written naming hnone]
    rfl
  have hinjective : ∀ e ∈ writtenEnds source type, ∀ e' ∈ writtenEnds source type,
      e.key type = e'.key type ↔ e = e' ∨ e.Blurs e' := fun e he e' he' =>
    (hproper e he).key_eq_iff (hproper e' he')
  refine ⟨hkeys, hinjective, ?_⟩
  have hlength : ((Direct.model naming source).document.relationships.group type).length =
      ((writtenEnds source type).toFinset.image (Ends.key type)).card := by
    rw [← length_eraseDups_map, ← hkeys, Dict.keys, List.length_map]
  rw [hlength, Finset.card_image_iff]
  constructor
  · intro hinj e he e' he' hblurs
    exact hinj (by simpa using he) (by simpa using he') ((hinjective e he e' he').mpr (.inr hblurs))
  · intro hclear e he e' he' hkey
    replace he : e ∈ writtenEnds source type := by simpa using he
    replace he' : e' ∈ writtenEnds source type := by simpa using he'
    exact ((hinjective e he e' he').mp hkey).elim id (hclear e he e' he')

/-- Fields keep relationships apart, whatever lines there are in names. -/
theorem relationships_kept_fields :
    let source := "relationship T \x7b A_\x7bx\x7d to B\x7by\x7d, A to _\x7bx\x7d, _A to B A to \x7d"
    (parse source).errors source = [] ∧ ∃ m, buildModel .english source = .ok m ∧
      (writtenEnds source "T").toFinset.card = 4 ∧
      (m.document.relationships.group "T").length = 4 := by
  intro source
  have hnone : (parse source).errors source = [] := by decide +kernel
  obtain ⟨m, hm, hkept⟩ := relationships_kept .english source hnone
  obtain ⟨-, -, hcard⟩ := hkept "T"
  have hfour : (writtenEnds source "T").toFinset.card = 4 := by decide +kernel
  have hclear : ∀ e ∈ writtenEnds source "T", ∀ e' ∈ writtenEnds source "T",
      e.Blurs e' → e = e' := by
    decide +kernel
  exact ⟨hnone, m, hm, hfour, (hcard.mpr hclear).trans hfour⟩

/-- Two relationships of different entities that share a name: only the second one is kept. -/
theorem relationships_blurred :
    let source := "relationship T \x7b A_B to C A to B_C \x7d"
    (parse source).errors source = [] ∧ ∃ m, buildModel .english source = .ok m ∧
      writtenEnds source "T" =
        [⟨⟨some "A_B", none⟩, ⟨some "C", none⟩⟩, ⟨⟨some "A", none⟩, ⟨some "B_C", none⟩⟩] ∧
      (m.document.relationships.group "T").map (fun r => (r.1, r.2.getString? "from")) =
        [("T_A_B_C", some "A")] := by
  refine ⟨by decide +kernel, _, buildModel_eq .english _, ?_, ?_⟩
  all_goals decide +kernel

end DomainModel
