import EdmxPruning.Metadata.Kind
import EdmxPruning.Document.Basic

/-! Search for metadata elements. Documents disagree about namespaces, so there are three places
where an element is accepted, and a search takes the first place that has any. -/
namespace EdmxPruning

inductive Placement where
  | inDefaultNamespace
  | inNoNamespace
  | belowDataServices
  deriving DecidableEq, Repr

def Placement.ordered : List Placement := [.inDefaultNamespace, .inNoNamespace, .belowDataServices]

namespace Document

def hasKind (d : Document) (kind : ElementKind) (id : NodeId) : Bool :=
  (d.tag? id).any (·.localName == kind.localName)

def isPlaced (d : Document) (id : NodeId) : Placement → Bool
  | .inDefaultNamespace => d.namespace? id == some d.defaultNamespace
  | .inNoNamespace => d.namespace? id == none
  | .belowDataServices => (d.ancestors id).any (d.hasKind .dataServices)

def accepts (d : Document) (placement : Placement) (kind : ElementKind) (id : NodeId) : Bool :=
  d.hasKind kind id && d.isPlaced id placement

def matching (d : Document) (placement : Placement) (kind : ElementKind)
    (candidates : List NodeId) : List NodeId :=
  candidates.filter (d.accepts placement kind)

/-- A search looks at all elements below its scope, or at the whole tree with its root. -/
def candidates (d : Document) : Option NodeId → List NodeId
  | none => d.root :: d.descendants d.root
  | some scope => d.descendants scope

def find (d : Document) (kind : ElementKind) (scope : Option NodeId) : List NodeId :=
  let candidates := d.candidates scope
  (Placement.ordered.findSome? fun placement =>
    let found := d.matching placement kind candidates
    if found.isEmpty then none else some found).getD []

end Document
end EdmxPruning
