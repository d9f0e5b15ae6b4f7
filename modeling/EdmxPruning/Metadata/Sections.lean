import EdmxPruning.Metadata.Search

/-! The sections that pruning works on: schemas hold types and associations, entity containers
hold entity sets and function imports. A document without either is not metadata. -/
namespace EdmxPruning

inductive SectionError where
  | containerNotFound
  | schemaNotFound
  deriving DecidableEq, Repr

def SectionError.message : SectionError → String
  | .containerNotFound => "cannot find EntityContainer in the document"
  | .schemaNotFound => "cannot find Schema in the document"

structure Sections where
  containers : List NodeId
  schemas : List NodeId
  deriving DecidableEq, Repr

def Document.sections (d : Document) : Except SectionError Sections :=
  let containers := d.find .entityContainer none
  let schemas := d.find .schema none
  if containers.isEmpty then .error .containerNotFound
  else if schemas.isEmpty then .error .schemaNotFound
  else .ok ⟨containers, schemas⟩

namespace Sections

def inSchemas (s : Sections) (d : Document) (kind : ElementKind) : List NodeId :=
  s.schemas.flatMap fun schema => d.find kind (some schema)

def inContainers (s : Sections) (d : Document) (kind : ElementKind) : List NodeId :=
  s.containers.flatMap fun container => d.find kind (some container)

end Sections
end EdmxPruning
