import EdmxPruning.Navigation.Closure

/-! What each pass of pruning chooses for removal, given the closure and the document as the pass
finds it. -/
namespace EdmxPruning.Pruning

def refersOutside (d : Document) (closure : Closure) (name : String) (id : NodeId) : Bool :=
  (d.reference? id name).any (!closure.contains ·)

def entitySets (g : NavigationGraph) (closure : Closure) (d : Document) : List NodeId :=
  (g.sections.inContainers d .entitySet).filter (refersOutside d closure "EntityType")

/-- All definitions of a type that is not kept, in the order of the names. -/
def entityTypes (g : NavigationGraph) (closure : Closure) : List NodeId :=
  (g.entityNames.filter (!closure.contains ·)).names.flatMap g.nodes

def associations (g : NavigationGraph) (closure : Closure) (d : Document) : List NodeId :=
  (g.sections.inSchemas d .association).filter fun association =>
    (d.find .associationEnd (some association)).any (refersOutside d closure "Type")

/-- An import goes with its type only if the type's entity set was removed. -/
def functionImports (closure : Closure) (gone : NameSet) (g : NavigationGraph) (d : Document) :
    List NodeId :=
  (g.sections.inContainers d .functionImport).filter fun functionImport =>
    ((d.attribute? functionImport "ReturnType").map ShortName.ofReturnType).any fun name =>
      name ∈ gone && !closure.contains name

def associationsLeft (g : NavigationGraph) (d : Document) : NameSet :=
  .ofList ((g.sections.inSchemas d .association).filterMap (d.reference? · "Name"))

/-- Properties of kept types whose association is no longer in the document. -/
def navigationProperties (g : NavigationGraph) (closure : Closure) (d : Document) : List NodeId :=
  let left := associationsLeft g d
  let kept := (g.entityNames.filter closure.contains).names.flatMap g.nodes
  (kept.flatMap fun entityType => d.find .navigationProperty (some entityType)).filter fun id =>
    (d.reference? id "Relationship").any (· ∉ left)

end EdmxPruning.Pruning
