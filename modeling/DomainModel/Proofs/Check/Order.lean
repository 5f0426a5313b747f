/-
The order of declarations does not matter.

Two documents that are the same as values differ at most in the order in which their mappings
were filled.  Whatever is made of them is made key by key.  So the tables of their names agree
(`agree_of_alike`), classification leaves them the same (`alike_classify`), and the checks
find the same violations in another order (`violations_perm`).  That the values compare
rightly is known because no mapping of a built document has a key twice.
-/
import DomainModel.Proofs.Build.Tidy
import DomainModel.Proofs.Check.Frame
import DomainModel.Proofs.Check.Validation

namespace DomainModel

open Value (Alike alike_map)

/-! ### Names -/

/-- Declarations that are alike are marked alike. -/
theorem Value.Alike.marksAggregate {v w : Value} (h : v.Alike w) :
    SymbolTable.marksAggregate v = SymbolTable.marksAggregate w :=
  any_eq_of_rel (rel_bind (h.get? "options") fun _ _ hoptions => hoptions.get? "aggregate")
    fun _ _ hmark => hmark.isTrue

section
variable {d e : Document}
  (hcollections : ∀ c, (Value.map (d.collection c)).Alike (.map (e.collection c)))
include hcollections

theorem agree_of_alike : (SymbolTable.ofDocument d).Agree (SymbolTable.ofDocument e) := by
  refine SymbolTable.agree_ofDocument (fun kind name => (hcollections _).mem_keys name) ?_
  intro name
  have hentities := hcollections .entities
  have haggregates := hcollections .aggregates
  obtain ⟨hnodup, hnodup', hrel⟩ := alike_map.mp hentities
  have hmarked : (Dict.get? d.entities name).any SymbolTable.marksAggregate =
      (Dict.get? e.entities name).any SymbolTable.marksAggregate :=
    any_eq_of_rel (hrel name) fun _ _ hnode => hnode.marksAggregate
  rw [Bool.eq_iff_iff, SymbolTable.isAggregate_ofDocument hnodup,
    SymbolTable.isAggregate_ofDocument hnodup']
  refine or_congr (haggregates.mem_keys name) ?_
  simpa only [Option.any_eq_true, Option.mem_def] using Bool.eq_iff_iff.mp hmarked

end

/-! ### Classification -/

namespace Classification

theorem alike_onMap {f g : Members → Members}
    (hfg : ∀ m m', (Value.map m).Alike (.map m') → (Value.map (f m)).Alike (.map (g m')))
    {v w : Value} (h : v.Alike w) : (onMap f v).Alike (onMap g w) := by
  have hmaps := h.map?
  cases v <;> cases w <;> first
    | exact hfg _ _ h
    | exact h
    | cases hmaps

theorem alike_onValues {f g : Value → Value} (hfg : ∀ v w, v.Alike w → (f v).Alike (g w))
    {m m' : Members} (h : (Value.map m).Alike (.map m')) :
    (Value.map (onValues f m)).Alike (.map (onValues g m')) := by
  obtain ⟨hkeys, hkeys', hrel⟩ := alike_map.mp h
  refine alike_map.mpr ⟨by rwa [keys_onValues], by rwa [keys_onValues], fun key => ?_⟩
  rw [get?_onValues, get?_onValues]
  exact rel_map (hrel key) hfg

theorem tidy_marks (symbols : SymbolTable) (type : Option String) :
    (Value.map (marks symbols type)).Tidy := by
  refine .map (nodup_marks symbols type) (List.forall_mem_append.mpr ⟨?_, ?_⟩)
  · exact List.forall_mem_map.mpr fun _ _ => .bool _
  · exact List.forall_mem_singleton.mpr (.bool _)

section
variable {s t : SymbolTable} (hst : ∀ kind name, s.contains kind name = t.contains kind name)
include hst

theorem alike_field {m m' : Members} (h : (Value.map m).Alike (.map m')) :
    (Value.map (field s m)).Alike (.map (field t m')) := by
  have htype : (Dict.get? m "type").bind Value.string? = (Dict.get? m' "type").bind Value.string? :=
    h.getString? "type"
  have hmarks : ∀ type, marks s type = marks t type := by
    intro type
    rw [marks, marks, flags, flags]
    simp only [funext fun kind => funext fun name => hst kind name]
  rw [field_eq_extend, field_eq_extend, htype, hmarks]
  exact h.extend (tidy_marks t _).alike

/-- **Declarations that are alike stay so**, as long as the tables know the same names. -/
theorem alike_declaration {v w : Value} (h : v.Alike w) :
    (declaration s v).Alike (declaration t w) :=
  alike_onMap (fun _ _ hnode => hnode.modify "fields" fun _ _ hfields =>
    alike_onMap (fun _ _ hfields => alike_onValues
      (fun _ _ hfield => alike_onMap (fun _ _ => alike_field hst) hfield) hfields) hfields) h

end

theorem alike_combined {d e : Document}
    (h : ∀ c, (Value.map (d.collection c)).Alike (.map (e.collection c))) :
    (Value.map (combined d)).Alike (.map (combined e)) :=
  combined_rel (P := fun m m' => (Value.map m).Alike (.map m')) tidy_emptyMap.alike
    (fun _ _ _ _ hm hmore => hm.extend hmore) h

/-- **Documents that are alike stay so.** -/
theorem alike_classify {m m' : Model}
    (hdecls : ∀ c ∈ Collection.withFields, Declarations (m.document.collection c))
    (hdecls' : ∀ c ∈ Collection.withFields, Declarations (m'.document.collection c))
    (h : m.document.toValue.Alike m'.document.toValue) :
    m.classify.document.toValue.Alike m'.classify.document.toValue := by
  obtain ⟨himports, hcollections, hjavadoc, -⟩ := Document.alike_toValue.mp h
  obtain ⟨hi, hj⟩ := rest_classify hdecls
  obtain ⟨hi', hj'⟩ := rest_classify hdecls'
  have hagree := agree_of_alike hcollections
  have hclassified : ∀ c, (Value.map (m.classify.document.collection c)).Alike
      (.map (m'.classify.document.collection c)) := by
    intro c
    rw [collection_classify hdecls, collection_classify hdecls']
    split
    · exact alike_onValues (fun _ _ => alike_declaration hagree.contains) (hcollections c)
    · exact hcollections c
  refine Document.alike_toValue.mpr ⟨?_, hclassified, ?_, ?_⟩
  · rw [hi, hi']
    exact himports
  · rw [hj, hj', hjavadoc]
  · rw [allEntitiesAndEnums_classify, allEntitiesAndEnums_classify]
    exact .some (alike_combined hclassified)

end Classification

/-! ### Checks -/

namespace Validation

section
variable {v w : Value} (h : v.Alike w)
include h

theorem alike_entriesAt (key : String) :
    (Value.map (v.entriesAt key)).Alike (.map (w.entriesAt key)) :=
  rel_getD (rel_bind (h.get? key) fun _ _ hmember => hmember.map?) tidy_emptyMap.alike

theorem alike_itemsAt (key : String) : List.Forall₂ Alike (v.itemsAt key) (w.itemsAt key) :=
  rel_getD (rel_bind (h.get? key) fun _ _ hmember => hmember.list?) .nil

end

/-- What is collected by place from rows that are alike is the same. -/
theorem flatMap_zipIdx {β : Type} {f g : Value × Nat → List β}
    (hfg : ∀ v w i, v.Alike w → f (v, i) = g (w, i)) {vs ws : List Value}
    (h : List.Forall₂ Alike vs ws) : vs.zipIdx.flatMap f = ws.zipIdx.flatMap g := by
  suffices hfrom : ∀ n, (vs.zipIdx n).flatMap f = (ws.zipIdx n).flatMap g from hfrom 0
  induction h with
  | nil => exact fun _ => rfl
  | cons hvw _ ih =>
      intro n
      rw [List.zipIdx_cons, List.zipIdx_cons, List.flatMap_cons, List.flatMap_cons,
        hfg _ _ n hvw, ih]

theorem filterMap_string? {vs ws : List Value} (h : List.Forall₂ Alike vs ws) :
    vs.filterMap Value.string? = ws.filterMap Value.string? := by
  induction h with
  | nil => rfl
  | cons hvw _ ih => rw [List.filterMap_cons, List.filterMap_cons, hvw.string?, ih]

section
variable {s t : SymbolTable} (hst : s.Agree t)
include hst

theorem typeFits_agree (o : Options) (c : Collection) (type : String) :
    typeFits o s c type = typeFits o t c type := by
  simp only [typeFits, hst.contains]

theorem event_agree (path : String) {v w : Value} (h : v.Alike w) :
    event s path v = event t path w := by
  rw [event, event, hst.contains, h.string?]

section
variable (path : String) {v w : Value} (h : v.Alike w)
include h

theorem parameter_agree : parameter s path v = parameter t path w := by
  rw [parameter, parameter, h.getString?]
  simp only [hst.contains]

theorem returnType_agree : returnType s path v = returnType t path w := by
  rw [returnType, returnType, h.getString?]
  simp only [hst.contains]

theorem withEvents_agree : withEvents s path v = withEvents t path w := by
  refine flatMap_zipIdx (fun item item' i hitem => ?_) (alike_itemsAt h "withEvents")
  have hlists := hitem.list?
  cases item <;> cases item' <;> first
    | exact event_agree hst _ hitem
    | exact flatMap_zipIdx (fun _ _ j hinner => event_agree hst _ hinner)
        (Option.rel_some_some.mp hlists)
    | cases hlists

end

section
variable {m m' : Members} (h : (Value.map m).Alike (.map m'))
include h

omit hst in
theorem apis_perm : (apis m).Perm (apis m') := by
  refine h.flatMap_perm fun name api api' hapi => ?_
  dsimp only
  rw [hapi.getString?]

theorem fields_perm (o : Options) (c : Collection) : (fields o s c m).Perm (fields o t c m') := by
  refine h.flatMap_perm fun name node node' hnode => ?_
  refine (alike_entriesAt hnode "fields").flatMap_perm fun fieldName field field' hfield => ?_
  dsimp only
  rw [hfield.getString?]
  simp only [typeFits_agree hst]
  exact .refl _

theorem aggregates_perm : (aggregates s m).Perm (aggregates t m') := by
  refine h.flatMap_perm fun name node node' hnode => ?_
  dsimp only
  rw [hnode.getString?, hst.contains]
  refine .append (.refl _) ?_
  refine (alike_entriesAt hnode "commands").flatMap_perm fun key command command' hcommand => ?_
  dsimp only
  rw [parameter_agree hst _ hcommand, withEvents_agree hst _ hcommand]

theorem services_perm : (services s m).Perm (services t m') := by
  refine h.flatMap_perm fun name node node' hnode => ?_
  dsimp only
  rw [filterMap_string? (alike_itemsAt hnode "aggregates")]
  simp only [hst.isAggregate]
  refine .append (.refl _) ?_
  refine (alike_entriesAt hnode "methods").flatMap_perm fun key method method' hmethod => ?_
  dsimp only
  rw [parameter_agree hst _ hmethod, returnType_agree hst _ hmethod,
    withEvents_agree hst _ hmethod]

theorem relationships_perm : (relationships s m).Perm (relationships t m') := by
  refine h.flatMap_perm fun type group group' hgroup => ?_
  have hentries := rel_getD hgroup.map? tidy_emptyMap.alike
  refine hentries.flatMap_perm fun name node node' hnode => ?_
  refine .of_eq (List.flatMap_congr fun side _ => ?_)
  rw [hnode.getString?]
  simp only [hst.contains]

end

/-- **Documents that are alike have the same violations**, in another order at most. -/
theorem violations_perm (o : Options) {d e : Document}
    (h : ∀ c, (Value.map (d.collection c)).Alike (.map (e.collection c))) :
    (violations o s d).Perm (violations o t e) :=
  ((((apis_perm (h .apis)).append
    (.flatMap_left _ fun c _ => fields_perm hst (h c) o c)).append
    (aggregates_perm hst (h .aggregates))).append (services_perm hst (h .services))).append
    (relationships_perm hst (h .relationships))

end

end Validation

/-- A problem wherever it may be. -/
def Problem.unlocated (p : Problem) : Problem := { p with location := none }

/-- The problems of a model are its violations, as its own table or that of its document
finds them. -/
theorem problems_eq (o : Options) (m : Model) : (m.validate o).problems =
    (Validation.violations o (m.symbols.getD (SymbolTable.ofDocument m.document))
      m.document).map (Violation.problem m) :=
  congrArg Model.problems (foldl_report _ m.withoutProblems)

theorem problems_perm (o : Options) {m m' : Model}
    (hsymbols : (m.symbols.getD (SymbolTable.ofDocument m.document)).Agree
      (m'.symbols.getD (SymbolTable.ofDocument m'.document)))
    (h : m.document.toValue.Alike m'.document.toValue) :
    ((m.validate o).problems.map Problem.unlocated).Perm
      ((m'.validate o).problems.map Problem.unlocated) := by
  obtain ⟨-, hcollections, -, -⟩ := Document.alike_toValue.mp h
  rw [problems_eq, problems_eq, List.map_map, List.map_map]
  exact (Validation.violations_perm hsymbols o hcollections).map
    fun v => (v.problem {}).unlocated

/-- What holds of the models of two texts holds of any two models whose documents are alike,
if these can be classified and have not been yet. -/
theorem orderless_of_alike {m m' : Model} (hfresh : m.symbols = none) (hfresh' : m'.symbols = none)
    (hdecls : ∀ c ∈ Collection.withFields,
      Classification.Declarations (m.document.collection c))
    (hdecls' : ∀ c ∈ Collection.withFields,
      Classification.Declarations (m'.document.collection c))
    (h : m.document.toValue.Alike m'.document.toValue) :
    m.classify.document.toValue.Alike m'.classify.document.toValue ∧
      (∃ s ∈ m.classify.symbols, ∃ s' ∈ m'.classify.symbols, s.Agree s') ∧
      ∀ o : Options,
        ((m.classify.validate o).problems.map Problem.unlocated).Perm
          ((m'.classify.validate o).problems.map Problem.unlocated) ∧
        ((m.validate o).problems.map Problem.unlocated).Perm
          ((m'.validate o).problems.map Problem.unlocated) := by
  have hagree := agree_of_alike (Document.alike_toValue.mp h).2.1
  have hclassified := Classification.alike_classify hdecls hdecls' h
  refine ⟨hclassified, ⟨_, rfl, _, rfl, hagree⟩, fun o =>
    ⟨problems_perm o hagree hclassified, problems_perm o ?_ h⟩⟩
  rw [hfresh, hfresh']
  exact hagree

/-- **Nothing that is resolved depends on the order of declarations.**  Where two texts make
the same document, whatever the order of its mappings, the documents stay the same once they
are classified, no question tells the tables of their names apart, and the problems are the
same but for their places and their order. -/
theorem resolution_orderless {naming naming' : Naming} {source source' : String} {m m' : Model}
    (hm : buildModel naming source = .ok m) (hm' : buildModel naming' source' = .ok m')
    (hsame : m.value.same m'.value = true) :
    m.classify.value.same m'.classify.value = true ∧
      (∃ s ∈ m.classify.symbols, ∃ s' ∈ m'.classify.symbols, s.Agree s') ∧
      ∀ o : Options,
        ((m.classify.validate o).problems.map Problem.unlocated).Perm
          ((m'.classify.validate o).problems.map Problem.unlocated) ∧
        ((m.validate o).problems.map Problem.unlocated).Perm
          ((m'.validate o).problems.map Problem.unlocated) := by
  have hmodel {naming : Naming} {source : String} {m : Model}
      (hm : buildModel naming source = .ok m) : m.symbols = none ∧ m.value.Tidy ∧
        ∀ c ∈ Collection.withFields,
          Classification.Declarations (m.document.collection c) := by
    obtain rfl := Except.ok.inj ((buildModel_eq naming source).symm.trans hm)
    exact ⟨rfl, tidy_draft ⟨naming, source.toList⟩ (shaped_parse source),
      declarations_model naming source⟩
  obtain ⟨hfresh, htidy, hdecls⟩ := hmodel hm
  obtain ⟨hfresh', htidy', hdecls'⟩ := hmodel hm'
  obtain ⟨hclassified, hrest⟩ :=
    orderless_of_alike hfresh hfresh' hdecls hdecls' ⟨htidy, htidy', hsame⟩
  exact ⟨hclassified.same, hrest⟩

/-- Two entities and the fields of one of them change places, and so do their problems. -/
theorem resolution_orderless_swapped :
    let source := "entity A \x7b x X \x7d entity B \x7b a A y Y \x7d"
    let source' := "entity B \x7b y Y a A \x7d entity A \x7b x X \x7d"
    ∃ m m', buildModel .english source = .ok m ∧ buildModel .english source' = .ok m' ∧
      m.value.same m'.value = true ∧
      (m.validate {}).problems.map (·.value) = ["X", "Y"] ∧
      (m'.validate {}).problems.map (·.value) = ["Y", "X"] ∧
      m.classify.value.same m'.classify.value = true ∧
      ((m.classify.validate {}).problems.map Problem.unlocated).Perm
        ((m'.classify.validate {}).problems.map Problem.unlocated) := by
  intro source source'
  have hm := buildModel_eq .english source
  have hm' := buildModel_eq .english source'
  have hsame : (Direct.model .english source).value.same (Direct.model .english source').value =
      true := by
    decide +kernel
  obtain ⟨hclassified, -, hproblems⟩ := resolution_orderless hm hm' hsame
  refine ⟨_, _, hm, hm', hsame, ?_, ?_, hclassified, (hproblems {}).1⟩
  all_goals decide +kernel

end DomainModel
