import EdmxPruning.Journal.Logged
import EdmxPruning.Navigation.Graph

/-! The entity types to keep: the requested ones and all that navigation reaches from them. The
search is breadth first, so a type is found over a shortest way. -/
namespace EdmxPruning

structure Closure where
  requested : NameSet
  entities : NameSet
  deriving DecidableEq, Repr

/-- A type whose navigation was followed, with the types it was the first to lead to. -/
structure Visit where
  name : ShortName
  added : List ShortName
  deriving DecidableEq, Repr

namespace NavigationGraph

def visitsWithin (g : NavigationGraph) : Nat → List ShortName → NameSet → List Visit
  | 0, _, _ => []
  | _ + 1, [], _ => []
  | fuel + 1, name :: queue, known =>
      let added := ((g.neighbors name).diff known).names
      ⟨name, added⟩ :: g.visitsWithin fuel (queue ++ added) (known.insertAll added)

/-- Every name that is visited was requested or ends an association. -/
def visits (g : NavigationGraph) (requested : NameSet) : List Visit :=
  g.visitsWithin (requested.size + (g.associations.flatMap Association.ends).length)
    requested.names requested

def visitEvents (g : NavigationGraph) (visit : Visit) : List Event :=
  (g.unresolved visit.name).map (.unresolvedRelationship visit.name) ++
    visit.added.map (.dependencyAdded · visit.name)

def undefined (g : NavigationGraph) (requested : NameSet) : NameSet :=
  requested.filter fun name => (g.entityType? name).isNone

def closure (g : NavigationGraph) (names : List ShortName) : Logged Closure :=
  let requested := NameSet.ofList names
  let visits := g.visits requested
  { events := (g.undefined requested).names.map .undefinedRequest ++ visits.flatMap g.visitEvents
    value := ⟨requested, requested.insertAll (visits.flatMap Visit.added)⟩ }

end NavigationGraph

namespace Closure

def dependencies (c : Closure) : NameSet := c.entities.diff c.requested

def contains (c : Closure) (name : ShortName) : Bool := name ∈ c.entities

def size (c : Closure) : Nat := c.entities.size

def isEmpty (c : Closure) : Bool := c.entities.isEmpty

def listed (names : NameSet) : List String := names.names.map fun name => "  - " ++ name.text

def lines (c : Closure) : List String :=
  ["Requested entity types: " ++ toString c.requested.size] ++ listed c.requested ++
    ["Dependencies: " ++ toString c.dependencies.size] ++ listed c.dependencies ++
    ["Kept entity types: " ++ toString c.size]

end Closure
end EdmxPruning
