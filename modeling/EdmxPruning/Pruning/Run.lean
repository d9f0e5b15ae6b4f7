import EdmxPruning.Pruning.Choice
import EdmxPruning.Pruning.Report

/-! Pruning in five passes: entity sets, entity types, associations, function imports, navigation
properties. Each pass chooses from the document that the pass before has left, and the last one
repairs what the removal of associations leaves dangling. -/
namespace EdmxPruning

structure Removal where
  document : Document
  removed : List NodeId
  deriving DecidableEq, Repr

def Document.removeAll (d : Document) : List NodeId → Removal
  | [] => ⟨d, []⟩
  | id :: rest =>
      match d.remove? id with
      | none => d.removeAll rest
      | some smaller =>
          let later := smaller.removeAll rest
          ⟨later.document, id :: later.removed⟩

structure Pass where
  kind : ElementKind
  removed : List NodeId
  deriving DecidableEq, Repr

def Pass.events (d : Document) (pass : Pass) : List Event :=
  pass.removed.map (fun id => .removed pass.kind ((d.attribute? id "Name").getD "")) ++
    [.passDone pass.kind pass.removed.length]

namespace Pruning

structure Outcome where
  document : Document
  passes : List Pass
  gone : NameSet
  deriving DecidableEq, Repr

def run (g : NavigationGraph) (closure : Closure) (d : Document) : Outcome :=
  let sets := d.removeAll (entitySets g closure d)
  let gone := NameSet.ofList (sets.removed.filterMap (d.reference? · "EntityType"))
  let types := sets.document.removeAll (entityTypes g closure)
  let associations := types.document.removeAll (associations g closure types.document)
  let imports := associations.document.removeAll
    (functionImports closure gone g associations.document)
  let properties := imports.document.removeAll (navigationProperties g closure imports.document)
  { document := properties.document
    passes :=
      [⟨.entitySet, sets.removed⟩, ⟨.entityType, types.removed⟩,
       ⟨.association, associations.removed⟩, ⟨.functionImport, imports.removed⟩,
       ⟨.navigationProperty, properties.removed⟩]
    gone }

def Outcome.report (o : Outcome) : Report :=
  o.passes.foldl (fun report pass => report.add pass.removed.length pass.kind)
    { removedEntities := o.gone }

end Pruning

structure Pruned where
  document : Document
  closure : Closure
  report : Report
  deriving DecidableEq, Repr

namespace Document

def narrow (d : Document) (g : NavigationGraph) (closure : Closure) : Logged Pruned :=
  let outcome := Pruning.run g closure d
  { events := (if closure.isEmpty then [.emptyClosure] else []) ++
      outcome.passes.flatMap (Pass.events d)
    value := ⟨outcome.document, closure, outcome.report⟩ }

def prune (d : Document) (requested : List ShortName) : Except SectionError (Logged Pruned) := do
  let g ← d.navigation
  .ok do
    Logged.log g.events
    let closure ← g.closure requested
    Logged.log [.closureComputed closure.requested.size closure.size]
    d.narrow g closure

end Document
end EdmxPruning
