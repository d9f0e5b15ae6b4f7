import EdmxPruning.Journal.Event
import EdmxPruning.Metadata.NameSet
import EdmxPruning.Metadata.Sections

/-! The navigation graph of a document, as the named definitions in document order. A short name
means its first definition; the later ones of an entity type are kept to be removed with it. -/
namespace EdmxPruning

structure EntityType where
  name : ShortName
  node : NodeId
  relationships : List ShortName
  deriving DecidableEq, Repr

structure Association where
  name : ShortName
  node : NodeId
  ends : List ShortName
  deriving DecidableEq, Repr

structure NavigationGraph where
  sections : Sections
  entityTypes : List EntityType
  associations : List Association
  deriving DecidableEq, Repr

namespace Document

def reference? (d : Document) (id : NodeId) (name : String) : Option ShortName :=
  (d.attribute? id name).map ShortName.ofReference

def entityType? (d : Document) (node : NodeId) : Option EntityType := do
  let name ← d.reference? node "Name"
  let properties := d.find .navigationProperty (some node)
  some ⟨name, node, properties.filterMap (d.reference? · "Relationship")⟩

def association? (d : Document) (node : NodeId) : Option Association := do
  let name ← d.reference? node "Name"
  let ends := d.find .associationEnd (some node)
  some ⟨name, node, ends.filterMap (d.reference? · "Type")⟩

def navigation (d : Document) : Except SectionError NavigationGraph := do
  let sections ← d.sections
  .ok {
    sections
    entityTypes := (d.find .entityType none).filterMap d.entityType?
    associations := (d.find .association none).filterMap d.association? }

end Document

namespace NavigationGraph

def entityNames (g : NavigationGraph) : NameSet := .ofList (g.entityTypes.map EntityType.name)

def associationNames (g : NavigationGraph) : NameSet :=
  .ofList (g.associations.map Association.name)

def entityType? (g : NavigationGraph) (name : ShortName) : Option EntityType :=
  g.entityTypes.find? (·.name = name)

def association? (g : NavigationGraph) (name : ShortName) : Option Association :=
  g.associations.find? (·.name = name)

def nodes (g : NavigationGraph) (name : ShortName) : List NodeId :=
  (g.entityTypes.filter (·.name = name)).map EntityType.node

def relationships (g : NavigationGraph) (name : ShortName) : List ShortName :=
  ((g.entityType? name).map EntityType.relationships).getD []

def ends (g : NavigationGraph) (name : ShortName) : List ShortName :=
  ((g.association? name).map Association.ends).getD []

/-- The other ends of the associations that the navigation properties of a type name. -/
def neighbors (g : NavigationGraph) (name : ShortName) : NameSet :=
  .ofList (((g.relationships name).flatMap g.ends).filter (· ≠ name))

def unresolved (g : NavigationGraph) (name : ShortName) : List ShortName :=
  (g.relationships name).filter fun relationship => (g.association? relationship).isNone

def repeated (seen : NameSet) : List ShortName → List ShortName
  | [] => []
  | name :: rest =>
      if name ∈ seen then name :: repeated seen rest else repeated (seen.insert name) rest

def events (g : NavigationGraph) : List Event :=
  (repeated ∅ (g.entityTypes.map EntityType.name)).map .duplicateDefinition ++
    (repeated ∅ (g.associations.map Association.name)).map .duplicateDefinition ++
    [.indexBuilt g.entityNames.size g.associationNames.size]

end NavigationGraph
end EdmxPruning
