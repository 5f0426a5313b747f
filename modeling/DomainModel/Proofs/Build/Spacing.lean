/-
White space and comments mean nothing, except where text is taken over as it is written.

Two texts with the same proper tokens have the same tree without trivia, if no doc comment is
among them.  If they also quote the same, their trees have the same essence, and from that
their documents are read off (`analyze_respaced`).  Quotations are the arguments of checks
and the initial values that are no literals, with white space around them dropped.
-/
import DomainModel.Proofs.Build.Essence
import DomainModel.Proofs.Check.Validation

namespace DomainModel

/-- What a text is made of apart from white space and comments: its tokens by kind and text. -/
def properTokens (source : String) : List (TokenKind × String) :=
  (Grammar.proper (scan source)).map fun t => (t.kind, t.text)

theorem bareTokens_scan (source : String) : Grammar.bareTokens (scan source) =
    (properTokens source).map fun t => ⟨t.1, t.2, 0⟩ := by
  rw [Grammar.bareTokens, properTokens, List.map_map]
  rfl

/-- A doc comment is a proper token. -/
theorem undocumented_iff (source : String) : Grammar.Undocumented (scan source) ↔
    ∀ t ∈ properTokens source, t.1 ≠ .javadoc := by
  constructor
  · intro h t ht
    obtain ⟨token, htoken, rfl⟩ := List.mem_map.mp ht
    exact h token (List.mem_filter.mp htoken).1
  · intro h token htoken hkind
    refine h (token.kind, token.text) (List.mem_map.mpr ⟨token, ?_, rfl⟩) hkind
    refine List.mem_filter.mpr ⟨htoken, ?_⟩
    rw [Token.isTrivia, hkind]
    rfl

/-- Classifying reads the document alone, and checking leaves it as it is. -/
theorem document_analyzed (options : Options) (m : Model) :
    (m.classify.validate options).document =
      ({ document := m.document } : Model).classify.document := by
  rw [validate_eq options (m := m.classify) rfl]
  rfl

/-- The texts differ in white space and comments alone, and hold no doc comment. -/
structure Respaced (source source' : String) : Prop where
  undocumented : ∀ t ∈ scan source, t.kind ≠ .javadoc
  tokens : properTokens source = properTokens source'

instance (source source' : String) : Decidable (Respaced source source') :=
  decidable_of_iff
    ((∀ t ∈ scan source, t.kind ≠ .javadoc) ∧ properTokens source = properTokens source')
    ⟨fun h => ⟨h.1, h.2⟩, fun h => ⟨h.1, h.2⟩⟩

theorem Respaced.bare_parse {source source' : String} (h : Respaced source source') :
    (parse source).tree.bare = (parse source').tree.bare := by
  have hundocumented : Grammar.Undocumented (scan source') :=
    (undocumented_iff source').mpr (h.tokens ▸ (undocumented_iff source).mp h.undocumented)
  refine DomainModel.bare_parse h.undocumented hundocumented ?_
  rw [bareTokens_scan, bareTokens_scan, h.tokens]

/-- The document of a text is read off the essence of its tree. -/
theorem document_model (naming : Naming) (source : String) : (Direct.model naming source).document =
    Direct.document ⟨naming, []⟩ (parse source).tree.essence := by
  have hshaped := shaped_parse source
  have hroot : (parse source).tree.kind? ≠ some .nestedField := by
    rw [show (parse source).tree.kind? = some .sourceFile from rfl]
    decide
  exact (draft_document ⟨naming, source.toList⟩ hshaped).trans
    (Direct.document_essence source.toList [] hshaped hroot).symm

/-- **White space and comments mean nothing.**  Texts that differ in them alone and quote the
same have the same document. -/
theorem analyze_respaced (options : Options) (naming : Naming) {source source' : String}
    (h : Respaced source source')
    (hquotations : (parse source).tree.quotations = (parse source').tree.quotations) :
    ∃ a a', analyze options naming source = .ok a ∧ analyze options naming source' = .ok a' ∧
      a.model.document = a'.model.document := by
  have hessence := Tree.essence_of_bare h.bare_parse hquotations
  refine ⟨_, _, analyze_eq options naming source, analyze_eq options naming source', ?_⟩
  simp only [document_analyzed, document_model, hessence]

/-- Comments between the parts of a field, and space around the bound of a check. -/
theorem analyze_respaced_field :
    let source := "entity A \x7b x String min(3) \x7d"
    let source' := "entity A // a thing\n\x7b x /* short */ String\n min( 3 ) \x7d"
    Respaced source source' ∧
      (parse source).tree.quotations = (parse source').tree.quotations ∧
      ∃ a a', analyze {} .english source = .ok a ∧ analyze {} .english source' = .ok a' ∧
        a.model.document = a'.model.document := by
  intro source source'
  have hrespaced : Respaced source source' := by decide +kernel
  have hquotations : (parse source).tree.quotations = (parse source').tree.quotations := by
    decide +kernel
  exact ⟨hrespaced, hquotations, analyze_respaced {} .english hrespaced hquotations⟩

theorem getString?_congr {m m' : Model} (h : m.document = m'.document) (path : String) :
    m.getString? path = m'.getString? path := by
  rw [Model.getString?, Model.getString?, Model.get?, Model.get?, Model.value, Model.value, h]

/-- Space inside a quotation is part of it, be it in the argument of a check or in a dotted
name. -/
theorem respaced_quotations_differ :
    let checked := "entity A \x7b x String pattern(a.b) \x7d"
    let checked' := "entity A \x7b x String pattern(a . b) \x7d"
    let named := "entity A \x7b x String = B.c \x7d"
    let named' := "entity A \x7b x String = B . c \x7d"
    (Respaced checked checked' ∧ ∃ a a', analyze {} .english checked = .ok a ∧
      analyze {} .english checked' = .ok a' ∧ a.model.document ≠ a'.model.document) ∧
    Respaced named named' ∧ ∃ a a', analyze {} .english named = .ok a ∧
      analyze {} .english named' = .ok a' ∧ a.model.document ≠ a'.model.document := by
  intro checked checked' named named'
  have hdiffer {source source' : String} (path : String)
      (h : ((Direct.model .english source).classify.validate {}).getString? path ≠
        ((Direct.model .english source').classify.validate {}).getString? path) :
      ∃ a a', analyze {} .english source = .ok a ∧ analyze {} .english source' = .ok a' ∧
        a.model.document ≠ a'.model.document := by
    refine ⟨_, _, analyze_eq {} .english source, analyze_eq {} .english source', fun heq => ?_⟩
    dsimp only at heq
    exact h (getString?_congr heq path)
  refine ⟨⟨by decide +kernel, hdiffer "entities.A.fields.x.validations.pattern.value" ?_⟩,
    by decide +kernel, hdiffer "entities.A.fields.x.initialValue" ?_⟩
  all_goals decide +kernel

end DomainModel
