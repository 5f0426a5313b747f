/-
Checking again finds the same problems.

Whoever works with a model classifies it, checks it with one set of options and another, and
adds or removes problems in between.  A model carries along what was stored on the way: the
table of names that a classification made, the flags it set, the problems of the last check.
None of it has a say in the next check.  `Model.Continues` is the invariant of such a session:
the places are those of the model it began with, and the document is the one of the beginning
without a table, or the classified one with the table of the beginning.  `continues_apply` has
it kept by one operation, `continues_run` by all of them, and `violations_classify` says that
the checks see no difference between the two documents.
-/
import DomainModel.Proofs.Check.Frame
import DomainModel.Proofs.Check.Order

namespace DomainModel

open Classification

/-- What can be done with a model once it is built. -/
inductive Operation where
  | validate (o : Options)
  | classify
  | report (code path : String) (value : Option String) (template : String)
  | clear

namespace Operation

def apply (m : Model) : Operation → Model
  | validate o => m.validate o
  | classify => m.classify
  | report code path value template => m.report code path value template
  | clear => m.withoutProblems

end Operation

/-- A model after some operations, one after the other. -/
def Model.run (m : Model) (ops : List Operation) : Model := ops.foldl Operation.apply m

/-! ### What the checks do not see -/

namespace Validation

/-- No check reads what classification writes into a declaration. -/
theorem fields_onValues (o : Options) (s symbols : SymbolTable) (c : Collection) (m : Members) :
    fields o s c (onValues (declaration symbols) m) = fields o s c m := by
  have htype : ∀ field : Value,
      (onMap (Classification.field symbols) field).getString? "type" = field.getString? "type" := by
    intro field
    cases field with
    | map node => exact congrArg (·.bind Value.string?) (get?_field_type symbols node)
    | _ => rfl
  rw [fields, onValues, List.flatMap_map]
  refine List.flatMap_congr fun e _ => ?_
  dsimp only
  rw [entriesAt_declaration, onValues, List.flatMap_map]
  simp only [htype]

/-- **The checks find the same in a document and in the classified one**, whatever table of
names they go by. -/
theorem violations_classify (o : Options) (s : SymbolTable) {m : Model}
    (hdecls : ∀ c ∈ Collection.withFields, Declarations (m.document.collection c)) :
    violations o s m.classify.document = violations o s m.document := by
  have hother : ∀ c ∉ Collection.withFields,
      m.classify.document.collection c = m.document.collection c := by
    intro c hc
    rw [collection_classify hdecls, if_neg hc]
  have hfields : ∀ c ∈ Collection.withFields,
      fields o s c (m.classify.document.collection c) = fields o s c (m.document.collection c) := by
    intro c hc
    rw [collection_classify hdecls, if_pos hc, fields_onValues]
  have hapis : m.classify.document.apis = m.document.apis := hother .apis (by decide)
  have haggregates : m.classify.document.aggregates = m.document.aggregates :=
    hother .aggregates (by decide)
  have hservices : m.classify.document.services = m.document.services :=
    hother .services (by decide)
  have hrelationships : m.classify.document.relationships = m.document.relationships :=
    hother .relationships (by decide)
  rw [violations, violations, hapis, haggregates, hservices, hrelationships,
    List.flatMap_congr hfields]

end Validation

/-- A check changes the problems and nothing else. -/
theorem validate_frame (m : Model) (o : Options) :
    m.validate o = { m with problems := (m.validate o).problems } := by
  have hfold := foldl_report (Validation.violations o
    (m.symbols.getD (SymbolTable.ofDocument m.document)) m.document) m.withoutProblems
  rw [Model.validate, hfold]
  rfl

/-! ### Sessions -/

/-- What a session leaves of the model `m₀` that it began with. -/
structure Model.Continues (m₀ m : Model) : Prop where
  locations : m.locations = m₀.locations
  content : m.document = m₀.document ∧ m.symbols = none ∨
    m.document = m₀.classify.document ∧ m.symbols = m₀.classify.symbols

section
variable {m₀ m : Model}
  (hdecls : ∀ c ∈ Collection.withFields, Declarations (m₀.document.collection c))
include hdecls

/-- Whether for the first time or again, a classification leaves the classified document and
the table of the beginning. -/
theorem continues_classify (h : m₀.Continues m) : m₀.Continues m.classify := by
  have hcongr : ∀ {m m' : Model}, m.document = m'.document →
      m.classify.document = m'.classify.document ∧ m.classify.symbols = m'.classify.symbols := by
    intro m m' hdocument
    simp only [Model.classify, hdocument, and_self]
  refine ⟨h.locations, .inr ?_⟩
  rcases h.content with ⟨hdocument, -⟩ | ⟨hdocument, -⟩
  · exact hcongr hdocument
  · have hagain := hcongr hdocument
    rw [classify_classify hdecls] at hagain
    exact hagain

/-- **One operation keeps what a check depends on.** -/
theorem continues_apply (h : m₀.Continues m) (op : Operation) : m₀.Continues (op.apply m) := by
  cases op with
  | validate o =>
      show m₀.Continues (m.validate o)
      rw [validate_frame]
      exact ⟨h.locations, h.content⟩
  | classify => exact continues_classify hdecls h
  | report code path value template => exact ⟨h.locations, h.content⟩
  | clear => exact ⟨h.locations, h.content⟩

/-- **A whole session keeps it.** -/
theorem continues_run (h : m₀.Continues m) (ops : List Operation) : m₀.Continues (m.run ops) := by
  induction ops generalizing m with
  | nil => exact h
  | cons op ops ih => exact ih (continues_apply hdecls h op)

/-- Where a check has to collect the names itself, it finds those of the beginning. -/
theorem Model.Continues.ofDocument (h : m₀.Continues m) :
    SymbolTable.ofDocument m.document = SymbolTable.ofDocument m₀.document := by
  rcases h.content with ⟨hdocument, -⟩ | ⟨hdocument, -⟩
  · rw [hdocument]
  · rw [hdocument, ofDocument_classify hdecls]

/-- **A check finds what it would have found in the beginning**, with the table that is
stored or without. -/
theorem Model.Continues.problems (hfresh : m₀.symbols = none) (h : m₀.Continues m) (o : Options)
    {symbols : Option SymbolTable} (hsymbols : symbols = none ∨ symbols = m.symbols) :
    ({ m with symbols := symbols }.validate o).problems = (m₀.validate o).problems := by
  have htable : symbols.getD (SymbolTable.ofDocument m.document) =
      SymbolTable.ofDocument m₀.document := by
    have hcollected := h.ofDocument hdecls
    rcases hsymbols with rfl | rfl
    · exact hcollected
    · rcases h.content with ⟨-, hnone⟩ | ⟨-, hstored⟩
      · rw [hnone]
        exact hcollected
      · rw [hstored]
        rfl
  have hsame : Validation.violations o (SymbolTable.ofDocument m₀.document) m.document =
      Validation.violations o (SymbolTable.ofDocument m₀.document) m₀.document := by
    rcases h.content with ⟨hdocument, -⟩ | ⟨hdocument, -⟩
    · rw [hdocument]
    · rw [hdocument, Validation.violations_classify o _ hdecls]
  have hplace : Violation.problem { m with symbols := symbols } = Violation.problem m₀ := by
    funext v
    simp only [Violation.problem, Model.location?, h.locations]
  rw [problems_eq, problems_eq, hfresh, htable, hsame, hplace]
  rfl

end

/-- **The problems of a model depend on what was built and on the options of the last check
only.**  Whatever was done with the model of a text, a check in the end leaves the problems
that it finds in the model as it was built, by the table that is stored as well as by one
that it collects itself; and it changes nothing but the problems. -/
theorem validate_run (naming : Naming) (source : String) :
    ∃ m, buildModel naming source = .ok m ∧ ∀ (ops : List Operation) (o : Options),
      (m.run (ops ++ [.validate o])).problems = (m.validate o).problems ∧
      ({ m.run ops with symbols := none }.validate o).problems = (m.validate o).problems ∧
      (m.run ops).validate o = { m.run ops with problems := (m.validate o).problems } := by
  have hdecls := declarations_model naming source
  refine ⟨_, buildModel_eq naming source, fun ops o => ?_⟩
  have hrun := continues_run hdecls ⟨rfl, .inl ⟨rfl, rfl⟩⟩ ops
  have hstored := hrun.problems hdecls rfl o (.inr rfl)
  have hcollected := hrun.problems hdecls rfl o (.inl rfl)
  have hframe := validate_frame ((Direct.model naming source).run ops) o
  refine ⟨?_, hcollected, ?_⟩
  · rw [Model.run, List.foldl_append]
    exact hstored
  · rw [hstored] at hframe
    exact hframe

end DomainModel
