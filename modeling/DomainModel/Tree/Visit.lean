/-
Walking a tree.

`Tree.visits` lists what a walk meets: every construct that means something, before its
children, and the end of every construct that other constructs belong to, after them.
Each end matches a beginning and they nest, because both come from one node.
-/
import DomainModel.Tree.Basic

namespace DomainModel

/-- Constructs whose beginning a walk reports. -/
def NodeKind.isReported : NodeKind → Bool
  | .globalJavadoc | .legacyConstant | .importStatement | .configOption | .api | .apiConfig
  | .plugin | .pluginConfigOption | .pluginCliOption | .policy | .entity | .input | .output
  | .event | .annotationNode | .field | .nestedField | .enumeration | .enumValue
  | .relationship | .service | .legacyService | .serviceMethod | .aggregate
  | .aggregateCommand => true
  | _ => false

/-- Constructs whose end a walk reports. -/
def NodeKind.isScope : NodeKind → Bool
  | .api | .plugin | .entity | .input | .output | .event | .field | .nestedField
  | .enumeration | .service | .legacyService | .serviceMethod | .aggregate
  | .aggregateCommand => true
  | _ => false

/-- A step of a walk. -/
inductive Visit where
  | enter (kind : NodeKind) (node : Tree) (parent : Option Tree)
  | leave (kind : NodeKind) (node : Tree)

namespace Tree

mutual

/-- The steps of a walk over a tree with the given parent. -/
def visitsUnder (parent : Option Tree) : Tree → List Visit
  | .leaf _ => []
  | .node kind children =>
    let here : Tree := .node kind children
    (if kind.isReported then [.enter kind here parent] else []) ++
      visitsOfAll (some here) children ++
      (if kind.isScope then [.leave kind here] else [])

def visitsOfAll (parent : Option Tree) : List Tree → List Visit
  | [] => []
  | t :: ts => visitsUnder parent t ++ visitsOfAll parent ts

end

def visits (t : Tree) : List Visit := visitsUnder none t

end Tree

end DomainModel
