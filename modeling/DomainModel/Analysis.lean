/-
From a source text to a checked model.

Errors in the text never stop the analysis: whatever could be read is built, classified
and checked.
-/
import DomainModel.Build.Basic
import DomainModel.Check.Validation
import DomainModel.Grammar.Source

namespace DomainModel

/-- A model with the errors of the text it comes from. -/
structure Analysis where
  model : Model
  errors : List SyntaxError

/-- The model of a source text, neither classified nor checked. -/
def buildModel (naming : Naming) (source : String) : Except Fault Model :=
  Model.ofTree ⟨naming, source.toList⟩ (parse source).tree

/-- The model of a source text, classified and checked. -/
def analyze (options : Options) (naming : Naming) (source : String) : Except Fault Analysis := do
  let model ← buildModel naming source
  return ⟨model.classify.validate options, (parse source).errors source⟩

/-- The models of several source texts, each on its own. -/
def analyzeAll (options : Options) (naming : Naming) (sources : List String) :
    Except Fault (List Model) :=
  sources.mapM fun source => (analyze options naming source).map (·.model)

end DomainModel
