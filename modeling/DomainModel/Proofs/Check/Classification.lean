/-
Every field is classified, and nothing else is touched.

The paths of all fields are collected as text, and each is followed again to reach the
field it stands for.  That comes down to one pass over the declarations: where names have
no dots, a path leads back to its field (`fieldAt_eq`), and where no name occurs twice each
field is reached once.  `fields_eq` puts the two together.
-/
import DomainModel.Check.Classification
import DomainModel.Proofs.Model.Document
import DomainModel.Proofs.Value.Path

namespace DomainModel

namespace Classification

/-! ### One pass -/

/-- Applies `f` to a value that is a mapping. -/
def onMap (f : Members → Members) : Value → Value
  | .map entries => .map (f entries)
  | v => v

/-- Applies `f` to every value of a mapping. -/
def onValues (f : Value → Value) (entries : Members) : Members :=
  entries.map fun e => (e.1, f e.2)

/-- A declaration with its fields classified. -/
def declaration (symbols : SymbolTable) : Value → Value :=
  onMap (Dict.modify "fields" (onMap (onValues (onMap (field symbols)))))

/-- A declaration with one field changed. -/
def atField (f : Value → Value) (key : String) : Value → Value :=
  onMap (Dict.modify "fields" (onMap (Dict.modify key f)))

theorem onMap_onMap (f g : Members → Members) (v : Value) :
    onMap g (onMap f v) = onMap (fun m => g (f m)) v := by
  cases v <;> rfl

theorem onMap_self (v : Value) : onMap (fun m => m) v = v := by
  cases v <;> rfl

/-- A value with a member is a mapping. -/
theorem eq_map_of_get? {v w : Value} {key : String} (h : v.get? key = some w) :
    ∃ node, v = .map node ∧ Dict.get? node key = some w := by
  cases v with
  | map node => exact ⟨node, rfl, h⟩
  | _ => exact nomatch h

theorem atField_congr {f g : Value → Value} {key : String} {v : Value} {fs : Members}
    (hv : v.get? "fields" = some (.map fs))
    (h : ∀ x, Dict.get? fs key = some x → f x = g x) : atField f key v = atField g key v := by
  obtain ⟨node, rfl, hnode⟩ := eq_map_of_get? hv
  refine congrArg Value.map (Dict.modify_congr fun w hw => ?_)
  obtain rfl := Option.some.inj (hnode.symm.trans hw)
  exact congrArg Value.map (Dict.modify_congr h)

theorem onMap_modify_self (key : String) (v : Value) :
    onMap (Dict.modify key (onMap fun m => m)) v = v := by
  rw [funext onMap_self, funext (Dict.modify_self key), onMap_self]

theorem atField_self (key : String) (v : Value) : atField (fun x => x) key v = v := by
  rw [atField, funext (Dict.modify_self key), onMap_modify_self]

theorem get?_atField {f : Value → Value} {key : String} {v : Value} {fs : Members}
    (h : v.get? "fields" = some (.map fs)) :
    (atField f key v).get? "fields" = some (.map (Dict.modify key f fs)) := by
  obtain ⟨node, rfl, hnode⟩ := eq_map_of_get? h
  show Dict.get? (Dict.modify "fields" _ node) "fields" = _
  rw [Dict.get?_modify, if_pos rfl, hnode]
  rfl

/-- Changing all fields one after the other is changing the fields as a whole. -/
theorem foldl_atField (f : Value → Value) (keys : List String) (v : Value) :
    keys.foldl (fun v key => atField f key v) v =
      onMap (Dict.modify "fields"
        (onMap fun fs => keys.foldl (fun fs key => Dict.modify key f fs) fs)) v := by
  induction keys generalizing v with
  | nil => exact (onMap_modify_self "fields" v).symm
  | cons key keys ih =>
      rw [List.foldl_cons, ih, atField, onMap_onMap]
      simp only [Dict.modify_modify, onMap_onMap]
      rfl

/-- Where no field occurs twice, changing each is classifying the declaration. -/
theorem foldl_atField_keys {symbols : SymbolTable} {v : Value} {fs : Members}
    (hv : v.get? "fields" = some (.map fs)) (hnodup : (Dict.keys fs).Nodup) :
    (Dict.keys fs).foldl (fun v key => atField (onMap (field symbols)) key v) v =
      declaration symbols v := by
  obtain ⟨node, rfl, hnode⟩ := eq_map_of_get? hv
  rw [foldl_atField, declaration]
  refine congrArg Value.map (Dict.modify_congr fun w hw => ?_)
  obtain rfl := Option.some.inj (hnode.symm.trans hw)
  refine congrArg Value.map ?_
  show (Dict.keys fs).foldl (fun fs key => Dict.modify key (onMap (field symbols)) fs) fs = _
  rw [Dict.keys, List.foldl_map]
  exact Dict.foldl_modify hnodup fun _ => onMap (field symbols)

/-! ### Following a path -/

/-- The path of a field. -/
def fieldPath (c : Collection) (name key : String) : String :=
  Path.join (Path.join (Path.join c.key name) "fields") key

theorem steps_fieldPath (c : Collection) {name key : String} (hname : Dotless name)
    (hkey : Dotless key) : Path.steps (fieldPath c name key) = [c.key, name, "fields", key] := by
  have hc : c.key ≠ "" ∧ Path.steps c.key = [c.key] := by cases c <;> decide
  have hdecl := Path.join_ne_empty hc.1 name
  have hfields := Path.join_ne_empty hdecl "fields"
  have hdotless : Dotless "fields" := by decide
  rw [fieldPath, Path.steps_join hfields hkey, Path.steps_join hdecl hdotless,
    Path.steps_join hc.1 hname, hc.2]
  rfl

theorem lookup?_fieldPath {d : Document} {c : Collection} {name key : String} {v : Value}
    {fs : Members} (hname : Dotless name) (hkey : Dotless key)
    (hdecl : Dict.get? (d.collection c) name = some v) (hfields : v.get? "fields" = some (.map fs)) :
    d.toValue.lookup? (fieldPath c name key) = Dict.get? fs key := by
  obtain ⟨node, rfl, hnode⟩ := eq_map_of_get? hfields
  rw [Value.lookup?, steps_fieldPath c hname hkey, Value.follow?]
  show (d.toValue.get? c.key).bind _ = _
  rw [Document.get?_key]
  show (Dict.get? (d.collection c) name).bind _ = _
  rw [hdecl]
  show (Dict.get? node "fields").bind _ = _
  rw [hnode]
  show (Dict.get? fs key).bind _ = _
  cases Dict.get? fs key <;> rfl

theorem replaceAt_fieldPath {d : Document} {c : Collection} {name key : String} {v old : Value}
    {fs : Members} (hname : Dotless name) (hkey : Dotless key)
    (hdecl : Dict.get? (d.collection c) name = some v) (hfields : v.get? "fields" = some (.map fs))
    (hold : Dict.get? fs key = some old) (w : Value) :
    d.replaceAt (fieldPath c name key) w =
      d.update c (Dict.modify name (atField (fun _ => w) key)) := by
  have hkeyed : Collection.all.find? (·.key == c.key) = some c := by cases c <;> decide
  obtain ⟨node, rfl, hnode⟩ := eq_map_of_get? hfields
  have hinner := Value.replace?_map hnode (Value.replace?_map hold (rfl : old.replace? w [] = _))
  rw [Document.replaceAt, steps_fieldPath c hname hkey]
  simp only [hkeyed]
  refine Document.update_congr ?_
  rw [Value.replace?_map hdecl hinner]
  refine Dict.modify_congr fun v hv => ?_
  obtain rfl := Option.some.inj (hdecl.symm.trans hv)
  refine congrArg Value.map (Dict.modify_congr fun v hv => ?_)
  obtain rfl := Option.some.inj (hnode.symm.trans hv)
  rfl

/-- **A path without dots in its names leads to its field**, which is then classified. -/
theorem fieldAt_eq {symbols : SymbolTable} {d : Document} {c : Collection} {name key : String}
    {v : Value} {fs : Members} (hname : Dotless name) (hkey : Dotless key)
    (hdecl : Dict.get? (d.collection c) name = some v) (hfields : v.get? "fields" = some (.map fs)) :
    fieldAt symbols d (fieldPath c name key) =
      d.update c (Dict.modify name (atField (onMap (field symbols)) key)) := by
  have hcongr {g : Value → Value} (h : ∀ x, Dict.get? fs key = some x →
      g x = onMap (field symbols) x) : d.update c (Dict.modify name (atField g key)) =
      d.update c (Dict.modify name (atField (onMap (field symbols)) key)) := by
    refine Document.update_congr (Dict.modify_congr fun w hw => ?_)
    obtain rfl := Option.some.inj (hdecl.symm.trans hw)
    exact atField_congr hfields h
  have hsame : d = d.update c (Dict.modify name (atField (fun x => x) key)) := by
    rw [funext (atField_self key), funext (Dict.modify_self name), Document.update_self]
  rw [fieldAt, lookup?_fieldPath hname hkey hdecl hfields]
  cases hfield : Dict.get? fs key with
  | none =>
      refine hsame.trans (hcongr fun x hx => ?_)
      exact nomatch hfield.symm.trans hx
  | some x =>
      cases x with
      | map node =>
          refine (replaceAt_fieldPath hname hkey hdecl hfields hfield _).trans (hcongr ?_)
          intro x hx
          obtain rfl := Option.some.inj (hfield.symm.trans hx)
          rfl
      | _ =>
          refine hsame.trans (hcongr fun x hx => ?_)
          obtain rfl := Option.some.inj (hfield.symm.trans hx)
          rfl

/-! ### All paths -/

/-- The names of the fields of a declaration. -/
def fieldKeys (v : Value) : List String := Dict.keys (((v.get? "fields").bind Value.map?).getD [])

/-- The fields of some declarations, each by the name of its declaration and its own. -/
def fieldNames (m : Members) : List (String × String) :=
  m.flatMap fun e => (fieldKeys e.2).map (e.1, ·)

/-- Declarations with fields: no name occurs twice or has a dot. -/
structure Declarations (m : Members) : Prop where
  nodup : (Dict.keys m).Nodup
  dotless : ∀ name ∈ Dict.keys m, Dotless name
  fields : ∀ e ∈ m, ∃ fs, e.2.get? "fields" = some (.map fs) ∧ (Dict.keys fs).Nodup ∧
    ∀ key ∈ Dict.keys fs, Dotless key

theorem Declarations.mem_fieldNames {m : Members} (h : Declarations m) {p : String × String}
    (hp : p ∈ fieldNames m) : p.1 ∈ Dict.keys m ∧ Dotless p.1 ∧ Dotless p.2 := by
  obtain ⟨e, he, hp⟩ := List.mem_flatMap.mp hp
  obtain ⟨key, hkey, rfl⟩ := List.mem_map.mp hp
  obtain ⟨fs, hfs, -, hdotless⟩ := h.fields e he
  rw [fieldKeys, hfs] at hkey
  have hmem : e.1 ∈ Dict.keys m := List.mem_map_of_mem he
  exact ⟨hmem, h.dotless e.1 hmem, hdotless key hkey⟩

theorem parse_pattern {c : Collection} (hc : c ∈ Collection.withFields) :
    Pattern.parse (c.key ++ ".*.fields.*") = [.key c.key, .any, .key "fields", .any] := by
  revert c
  decide

/-- The paths of the fields of a collection. -/
theorem select_fields {d : Document} {c : Collection} (hc : c ∈ Collection.withFields)
    (h : Declarations (d.collection c)) :
    (d.toValue.select (c.key ++ ".*.fields.*")).map (·.1) =
      (fieldNames (d.collection c)).map fun p => fieldPath c p.1 p.2 := by
  have hstep : d.toValue.step? c.key = some (.map (d.collection c)) := d.get?_key c
  have hjoin : Path.join "" c.key = c.key := rfl
  rw [Value.select, parse_pattern hc, Pattern.selectFrom]
  simp only [hstep, hjoin, Pattern.selectFrom, Value.steppedChildren, List.map_flatMap, fieldNames]
  refine List.flatMap_congr fun e he => ?_
  obtain ⟨fs, hfs, -, -⟩ := h.fields e he
  obtain ⟨node, hnode, hget⟩ := eq_map_of_get? hfs
  have hfields : e.2.step? "fields" = some (.map fs) := by rw [hnode]; exact hget
  have hkeys : fieldKeys e.2 = fs.map (·.1) := by rw [fieldKeys, hfs]; rfl
  rw [hfields, hkeys]
  simp [fieldPath, ← List.map_eq_flatMap]

/-- Classifying fields of one collection, path by path. -/
theorem foldl_fieldAt {symbols : SymbolTable} {c : Collection} (names : List (String × String)) :
    ∀ d : Document, (∀ name v, Dict.get? (d.collection c) name = some v →
        ∃ fs, v.get? "fields" = some (.map fs)) →
      (∀ p ∈ names, p.1 ∈ Dict.keys (d.collection c) ∧ Dotless p.1 ∧ Dotless p.2) →
      (names.map fun p => fieldPath c p.1 p.2).foldl (fieldAt symbols) d =
        d.update c fun m => names.foldl
          (fun m p => Dict.modify p.1 (atField (onMap (field symbols)) p.2) m) m := by
  induction names with
  | nil => exact fun d _ _ => (d.update_self c).symm
  | cons p names ih =>
      intro d hdecls hnames
      obtain ⟨hmem, hname, hkey⟩ := hnames p (List.mem_cons_self ..)
      obtain ⟨v, hv⟩ := Option.isSome_iff_exists.mp ((Dict.mem_keys_iff ..).mp hmem)
      obtain ⟨fs, hfs⟩ := hdecls p.1 v hv
      rw [List.map_cons, List.foldl_cons, fieldAt_eq hname hkey hv hfs, ih, Document.update_update]
      · rfl
      · intro name w hw
        rw [Document.collection_update, if_pos rfl, Dict.get?_modify] at hw
        split at hw
        · obtain ⟨old, hold, rfl⟩ := Option.map_eq_some_iff.mp hw
          obtain ⟨fs, hfs⟩ := hdecls name old hold
          exact ⟨_, get?_atField hfs⟩
        · exact hdecls name w hw
      · intro q hq
        rw [Document.collection_update, if_pos rfl, Dict.keys_modify]
        exact hnames q (List.mem_cons_of_mem _ hq)

theorem foldl_modify_key (f : String → Value → Value) (name : String) (keys : List String) :
    ∀ m : Members, keys.foldl (fun m key => Dict.modify name (f key) m) m =
      Dict.modify name (fun v => keys.foldl (fun v key => f key v) v) m := by
  induction keys with
  | nil => exact fun m => (Dict.modify_self name m).symm
  | cons key keys ih =>
      intro m
      rw [List.foldl_cons, ih, Dict.modify_modify]
      rfl

/-- Changing all fields of all declarations one after the other is one pass over them. -/
theorem foldl_fieldNames {symbols : SymbolTable} {m : Members} (h : Declarations m) :
    (fieldNames m).foldl (fun m p => Dict.modify p.1 (atField (onMap (field symbols)) p.2) m) m =
      onValues (declaration symbols) m := by
  have hfold : (fieldNames m).foldl
      (fun m p => Dict.modify p.1 (atField (onMap (field symbols)) p.2) m) m =
      m.foldl (fun m' e => Dict.modify e.1 (fun v => (fieldKeys e.2).foldl
        (fun v key => atField (onMap (field symbols)) key v) v) m') m := by
    rw [fieldNames, List.foldl_flatMap]
    simp only [List.foldl_map, foldl_modify_key]
  rw [hfold, Dict.foldl_modify h.nodup fun old v => (fieldKeys old).foldl
    (fun v key => atField (onMap (field symbols)) key v) v, onValues]
  refine List.map_congr_left fun e he => ?_
  obtain ⟨fs, hfs, hnodup, -⟩ := h.fields e he
  have hkeys : fieldKeys e.2 = Dict.keys fs := by rw [fieldKeys, hfs]; rfl
  rw [hkeys, foldl_atField_keys hfs hnodup]

/-- The document with every field classified, in one pass. -/
def onePass (symbols : SymbolTable) (d : Document) : Document :=
  Collection.withFields.foldl (fun d c => d.update c (onValues (declaration symbols))) d

/-- **Following the paths of all fields classifies every field once.** -/
theorem fields_eq {symbols : SymbolTable} {d : Document}
    (h : ∀ c ∈ Collection.withFields, Declarations (d.collection c)) :
    fields symbols d = onePass symbols d := by
  -- The collections are done in turn, and those still to come are as they were.
  have hturn : ∀ cs : List Collection, cs.Nodup → (∀ c ∈ cs, c ∈ Collection.withFields) →
      ∀ d' : Document, (∀ c ∈ cs, d'.collection c = d.collection c) →
      cs.foldl (fun d' c => ((d.toValue.select (c.key ++ ".*.fields.*")).map (·.1)).foldl
        (fieldAt symbols) d') d' =
      cs.foldl (fun d' c => d'.update c (onValues (declaration symbols))) d' := by
    intro cs
    induction cs with
    | nil => exact fun _ _ _ _ => rfl
    | cons c cs ih =>
        intro hnodup hcs d' hsame
        obtain ⟨hfresh, hrest⟩ := List.nodup_cons.mp hnodup
        have hc := hcs c (List.mem_cons_self ..)
        have hd := hsame c (List.mem_cons_self ..)
        have hdecl := h c hc
        rw [List.foldl_cons, List.foldl_cons, select_fields hc hdecl, foldl_fieldAt,
          Document.update_congr (g := onValues (declaration symbols))]
        · refine ih hrest (fun c' hc' => hcs c' (List.mem_cons_of_mem _ hc')) _ fun c' hc' => ?_
          have hne : c ≠ c' := fun heq => hfresh (heq ▸ hc')
          rw [Document.collection_update, if_neg hne]
          exact hsame c' (List.mem_cons_of_mem _ hc')
        · rw [hd, foldl_fieldNames hdecl]
        · intro name v hv
          rw [hd] at hv
          obtain ⟨fs, hfs, -, -⟩ := hdecl.fields (name, v) (Dict.mem_of_get? hv)
          exact ⟨fs, hfs⟩
        · intro p hp
          rw [hd]
          exact hdecl.mem_fieldNames hp
  rw [fields, fieldPaths, List.foldl_flatMap, onePass]
  exact hturn _ (by decide) (fun _ hc => hc) d fun _ _ => rfl

/-! ### What a classified document says -/

theorem keys_onValues (f : Value → Value) (m : Members) :
    Dict.keys (onValues f m) = Dict.keys m := by
  rw [Dict.keys, onValues, List.map_map]
  rfl

theorem get?_onValues (f : Value → Value) (m : Members) (key : String) :
    Dict.get? (onValues f m) key = (Dict.get? m key).map f :=
  Dict.get?_mapped f m key

/-- Only the fields of a declaration change. -/
theorem get?_declaration (symbols : SymbolTable) (v : Value) (key : String) :
    (declaration symbols v).get? key =
      if key = "fields" then (v.get? key).map (onMap (onValues (onMap (field symbols))))
      else v.get? key := by
  cases v with
  | map node => exact Dict.get?_modify ..
  | _ => exact (ite_self _).symm

/-- **A field says of its type what the table says.** -/
theorem get?_field {symbols : SymbolTable} {node : Members} {kind : SymbolKind} {flag : String}
    (h : kind.flag? = some flag) : Dict.get? (field symbols node) flag =
      some (.bool (((Dict.get? node "type").bind Value.string?).any (symbols.contains kind))) := by
  rw [field, flags]
  cases kind <;> first
    | exact absurd h.symm (Option.some_ne_none flag)
    | obtain rfl := Option.some.inj h
      simp [SymbolKind.all, SymbolKind.flag?, Dict.get?_insert]

theorem get?_field_type (symbols : SymbolTable) (node : Members) :
    Dict.get? (field symbols node) "type" = Dict.get? node "type" := by
  simp [field, flags, SymbolKind.all, SymbolKind.flag?, Dict.get?_insert]

theorem collection_onePass (symbols : SymbolTable) (d : Document) (c : Collection) :
    (onePass symbols d).collection c =
      if c ∈ Collection.withFields then onValues (declaration symbols) (d.collection c)
      else d.collection c := by
  simp only [onePass, Collection.withFields, List.foldl_cons, List.foldl_nil,
    Document.collection_update]
  cases c <;> rfl

/-- The collections of a classified document. -/
theorem collection_classify {m : Model}
    (h : ∀ c ∈ Collection.withFields, Declarations (m.document.collection c)) (c : Collection) :
    m.classify.document.collection c =
      if c ∈ Collection.withFields then
        onValues (declaration (SymbolTable.ofDocument m.document)) (m.document.collection c)
      else m.document.collection c := by
  have hfields : m.classify.document.collection c =
      (fields (SymbolTable.ofDocument m.document) m.document).collection c := by
    cases c <;> rfl
  rw [hfields, fields_eq h, collection_onePass]

/-- Classification leaves the names of declarations as they are. -/
theorem keys_classify {m : Model}
    (h : ∀ c ∈ Collection.withFields, Declarations (m.document.collection c)) (c : Collection) :
    Dict.keys (m.classify.document.collection c) = Dict.keys (m.document.collection c) := by
  rw [collection_classify h]
  split
  · exact keys_onValues ..
  · rfl

end Classification

end DomainModel
