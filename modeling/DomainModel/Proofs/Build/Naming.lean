/-
What names are derived for, and what not.

A naming is asked for other spellings of the names that a text declares.  The answers stand in
the nodes of constructs, under keys of their own (`Site.derived`), and nowhere else: neither
what is recorded of a construct, nor where it is stored, nor anything else that its node says
depends on them.  What stands inside a construct is never asked for its derived names, so what
the node holds of it is the same under any naming (`Direct.slots`).  The one exception is a
service whose methods are not written: it names them itself.
-/
import DomainModel.Proofs.Build.Coherence
import DomainModel.Proofs.Value.EqualBut

namespace DomainModel

open Direct

/-! ### Nodes -/

/-- The keys whose values are derived from the name of a declaration; where the text gives a
name for the table, that is used as it is. -/
def derivedKeys (table : Option String) : List String :=
  ["className", "instanceName", "classNamePlural", "instanceNamePlural", "kebabCase",
    "kebabCasePlural"] ++ if table.isNone then ["tableName"] else []

/-- The keys of a construct whose values are derived from its name. -/
def Direct.derived (parent : Option Tree) (kind : NodeKind) (t : Tree) : List String :=
  match kind with
  | .entity | .input | .output | .event => derivedKeys (t.childWord? .tableName)
  | .nestedField => derivedKeys (parent.bind (·.childWord? .tableName))
  | .enumeration | .service | .aggregate => ["className"]
  | _ => []

variable (naming naming' : Naming) (source : List Char)

theorem declarationMembers_equalBut (name : String) (c : Collection)
    (javadoc table : Option String) (options : Members) :
    (Build.declarationMembers naming name c javadoc table options).EqualBut (derivedKeys table)
      (Build.declarationMembers naming' name c javadoc table options) := by
  cases table <;> simp [Members.EqualBut, Build.declarationMembers, derivedKeys]

/-- Constructs that begin alike, but for some keys of their nodes. -/
structure Opening.EqualBut (keys : List String) (o o' : Opening) : Prop where
  records : o.records = o'.records
  path : o.scope.path = o'.scope.path
  place : o.scope.place = o'.scope.place
  node : o.scope.node.EqualBut keys o'.scope.node

/-- **A construct begins alike under any naming**, but for its derived names. -/
theorem opening_naming (home : Option Home) (parent : Option Tree) {kind : NodeKind}
    (hkind : kind ≠ .legacyService) (t : Tree) :
    Option.Rel (Opening.EqualBut (derived parent kind t))
      (opening ⟨naming, source⟩ home parent kind t)
      (opening ⟨naming', source⟩ home parent kind t) := by
  cases kind
  case legacyService => exact absurd rfl hkind
  case entity | input | output | event =>
    exact .some ⟨rfl, rfl, rfl, declarationMembers_equalBut ..⟩
  case enumeration | service | aggregate =>
    exact .some ⟨rfl, rfl, rfl, by simp [Members.EqualBut, derived, Build.enumeration,
      Build.service, Build.aggregate]⟩
  case api | plugin => exact .some ⟨rfl, rfl, rfl, .refl _ _⟩
  case field | serviceMethod | aggregateCommand =>
    cases home with
    | none => exact .none
    | some home => exact .some ⟨rfl, rfl, rfl, .refl _ _⟩
  case nestedField =>
    cases parent with
    | none => exact .none
    | some owner =>
        cases home with
        | none => exact .none
        | some home => exact .some ⟨rfl, rfl, rfl, declarationMembers_equalBut ..⟩
  all_goals exact .none

/-! ### Records -/

mutual

/-- Is there no node of this kind in a tree? -/
def Tree.lacks (kind : NodeKind) : Tree → Bool
  | .leaf _ => true
  | .node kind' children => kind' != kind && lacksAll kind children

def Tree.lacksAll (kind : NodeKind) : List Tree → Bool
  | [] => true
  | t :: ts => t.lacks kind && lacksAll kind ts

end

theorem Tree.lacksAll_iff {kind : NodeKind} {ts : List Tree} :
    lacksAll kind ts = true ↔ ∀ t ∈ ts, t.lacks kind = true := by
  induction ts with
  | nil => simp [lacksAll]
  | cons t ts ih => rw [lacksAll, Bool.and_eq_true, ih, List.forall_mem_cons]

theorem Tree.lacks_node {kind kind' : NodeKind} {children : List Tree} :
    (node kind' children).lacks kind = true ↔
      kind' ≠ kind ∧ ∀ t ∈ children, t.lacks kind = true := by
  rw [lacks, Bool.and_eq_true, lacksAll_iff, bne_iff_ne]

/-- **What is recorded of a tree is no matter of naming.** -/
theorem recordsOf_naming (t : Tree) : ∀ {home : Option Home} {parent : Option Tree},
    t.lacks .legacyService = true → recordsOf (changes ⟨naming, source⟩ home parent t) =
      recordsOf (changes ⟨naming', source⟩ home parent t) := by
  induction t using Tree.induct with
  | leaf => exact fun _ => rfl
  | node kind children ih =>
      intro home parent hlacks
      obtain ⟨hkind, hlacks⟩ := Tree.lacks_node.mp hlacks
      have hchildren : ∀ home parent,
          recordsOf (changesOfAll ⟨naming, source⟩ home parent children) =
            recordsOf (changesOfAll ⟨naming', source⟩ home parent children) := by
        intro home parent
        rw [changesOfAll_eq, changesOfAll_eq, recordsOf_flatMap, recordsOf_flatMap]
        exact List.flatMap_congr fun t ht => ih t ht (hlacks t ht)
      have hopening := opening_naming naming naming' source home parent hkind
        (.node kind children)
      generalize ho : opening ⟨naming, source⟩ home parent kind (.node kind children) = o,
        ho' : opening ⟨naming', source⟩ home parent kind (.node kind children) = o' at hopening
      cases hopening with
      | none =>
          rw [recordsOf_single ho, recordsOf_single ho', hchildren]
          rfl
      | some hsame =>
          rw [recordsOf_opening ho, recordsOf_opening ho', hsame.records, hsame.path, hsame.place,
            hchildren]

/-- The locations of a draft are what its changes record, in order. -/
theorem locations_changes (cs : List Change) : ∀ d : Draft,
    (cs.foldl Draft.change d).locations = (d.change (.recorded (recordsOf cs))).locations := by
  induction cs with
  | nil => exact fun _ => rfl
  | cons change cs ih =>
      intro d
      rw [List.foldl_cons, ih]
      cases change with
      | recorded records =>
          show List.foldl _ _ _ = List.foldl _ _ (records ++ recordsOf cs)
          rw [List.foldl_append]
          rfl
      | _ => rfl

/-! ### Stored constructs -/

/-- The keys of a stored construct whose values are derived from its name. -/
def Direct.Site.derived (s : Site) : List String := Direct.derived s.parent s.kind s.node

theorem kind_of_site {kind : NodeKind} (t : Tree) :
    ∀ {within : Option Collection} {parent : Option Tree}, t.lacks kind = true →
      ∀ s ∈ sitesAfter within parent t, s.kind ≠ kind := by
  induction t using Tree.induct with
  | leaf => exact fun _ _ hs => nomatch hs
  | node kind' children ih =>
      intro within parent hlacks s hs
      obtain ⟨hkind, hlacks⟩ := Tree.lacks_node.mp hlacks
      rw [sitesAfter, List.mem_append, sitesAfterAll_eq, List.mem_flatMap] at hs
      rcases hs with ⟨t, ht, hs⟩ | hs
      · exact ih t ht (hlacks t ht) s hs
      · obtain ⟨c, -, rfl⟩ := List.mem_map.mp hs
        exact hkind

/-- **A stored node is the same under any naming**, but for its derived names. -/
theorem value_naming {s : Site} (hkind : s.kind ≠ .legacyService) :
    (s.value ⟨naming, source⟩).EqualBut s.derived (s.value ⟨naming', source⟩) := by
  have hopening := opening_naming naming naming' source (some ⟨"", s.collection⟩) s.parent hkind
    s.node
  rw [Site.value, Site.value]
  generalize opening ⟨naming, source⟩ _ s.parent s.kind s.node = o at hopening ⊢
  generalize opening ⟨naming', source⟩ _ s.parent s.kind s.node = o' at hopening ⊢
  cases hopening with
  | none => exact .refl _
  | some hsame => exact .map (hsame.node.extend _)

/-! ### Documents -/

/-- The keys whose values are derived, in what a tree leaves under a name of a collection. -/
def Direct.derivedAt (t : Tree) (c : Collection) (name : String) : List String :=
  ((kept? c name t).map Site.derived).getD []

/-- **A collection is the same under any naming**, but for the derived names of what it holds. -/
theorem collection_naming {t : Tree} (hlacks : t.lacks .legacyService = true) (c : Collection) :
    Dict.Rel (fun name => Value.EqualBut (derivedAt t c name)) (collection ⟨naming, source⟩ t c)
      (collection ⟨naming', source⟩ t c) := by
  have harrange : Dict.Rel (fun name => Value.EqualBut (derivedAt t c name))
      (Dict.arrange (names c t) (entries ⟨naming, source⟩ c t))
      (Dict.arrange (names c t) (entries ⟨naming', source⟩ c t)) := by
    refine List.rel_filterMap (R := Eq) (fun name _ heq => ?_) (List.forall₂_eq_eq_eq ▸ rfl)
    subst heq
    rw [get?_entries, get?_entries, Option.map_map, Option.map_map]
    cases hkept : kept? c name t with
    | none => exact .none
    | some s =>
        have hderived : derivedAt t c name = s.derived := by
          rw [derivedAt, hkept]
          rfl
        refine .some ⟨rfl, ?_⟩
        show (s.value _).EqualBut (derivedAt t c name) (s.value _)
        rw [hderived]
        exact value_naming naming naming' source (kind_of_site t hlacks s (kept?_mem hkept))
  cases c
  case relationships => exact Dict.Rel.refl (fun _ => .refl) _
  all_goals exact harrange

end DomainModel
