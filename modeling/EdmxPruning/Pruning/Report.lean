import EdmxPruning.Metadata.Kind
import EdmxPruning.Metadata.NameSet

/-! How much was removed, by kind of element, and which entity types lost their entity set. -/
namespace EdmxPruning

structure Report where
  entitySets : Nat := 0
  entityTypes : Nat := 0
  associations : Nat := 0
  functionImports : Nat := 0
  navigationProperties : Nat := 0
  removedEntities : NameSet := ∅
  deriving DecidableEq, Repr

namespace Report

/-- Only the five kinds that are removed for their own sake are counted. -/
def add (r : Report) (n : Nat) : ElementKind → Report
  | .entitySet => { r with entitySets := r.entitySets + n }
  | .entityType => { r with entityTypes := r.entityTypes + n }
  | .association => { r with associations := r.associations + n }
  | .functionImport => { r with functionImports := r.functionImports + n }
  | .navigationProperty => { r with navigationProperties := r.navigationProperties + n }
  | .dataServices | .schema | .entityContainer | .associationEnd => r

def total (r : Report) : Nat :=
  r.entitySets + r.entityTypes + r.associations + r.functionImports + r.navigationProperties

def isEmpty (r : Report) : Bool := r.total == 0

def listedAtMost : Nat := 10

def entitiesLine (names : List ShortName) : String :=
  let listed := ", ".intercalate ((names.take listedAtMost).map ShortName.text)
  let more := names.length - listedAtMost
  "Removed entities: " ++ listed ++
    if more > 0 then " (and " ++ toString more ++ " more)" else ""

def summary (r : Report) : List String :=
  ["Removed entity sets: " ++ toString r.entitySets,
   "Removed entity types: " ++ toString r.entityTypes,
   "Removed associations: " ++ toString r.associations,
   "Removed function imports: " ++ toString r.functionImports,
   "Removed navigation properties: " ++ toString r.navigationProperties] ++
  if r.removedEntities.isEmpty then [] else [entitiesLine r.removedEntities.names]

def text (r : Report) : String := "\n".intercalate r.summary

end Report
end EdmxPruning
