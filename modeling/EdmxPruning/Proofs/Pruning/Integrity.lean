import Mathlib.Tactic.ByContra
import EdmxPruning.Proofs.Navigation.Reachability
import EdmxPruning.Proofs.Pruning.Persistence

/-! Pruning leaves nothing dangling: in what is left of a conventional document every reference is
to a kept type or to an association that is still there. -/
namespace EdmxPruning

/- No element refers to a type that was not kept, to an association that is gone or, by what it
returns, to a type that lost its entity set. -/
structure Document.Intact (d : Document) (kept gone : NameSet) : Prop where
  entitySets : ∀ id ∈ d.elements, d.hasKind .entitySet id = true →
    ∀ name, d.reference? id "EntityType" = some name → name ∈ kept
  entityTypes : ∀ id ∈ d.elements, d.hasKind .entityType id = true →
    ∀ name, d.reference? id "Name" = some name → name ∈ kept
  ends : ∀ id ∈ d.elements, d.hasKind .associationEnd id = true →
    ∀ association ∈ d.ancestors id, d.hasKind .association association = true →
    ∀ name, d.reference? id "Type" = some name → name ∈ kept
  properties : ∀ id ∈ d.elements, d.hasKind .navigationProperty id = true →
    ∀ entityType, d.parent? id = some entityType →
    (d.reference? entityType "Name").isSome = true →
    ∀ name, d.reference? id "Relationship" = some name →
    ∃ association ∈ d.elements, d.hasKind .association association = true ∧
      d.reference? association "Name" = some name
  functionImports : ∀ id ∈ d.elements, d.hasKind .functionImport id = true →
    ∀ name, (d.attribute? id "ReturnType").map ShortName.ofReturnType = some name → name ∉ gone
  goneOutside : ∀ name ∈ gone, name ∉ kept

theorem Document.Intact.counting {d : Document} {kept gone more : NameSet} (h : d.Intact kept gone)
    (functionImports : ∀ id ∈ d.elements, d.hasKind .functionImport id = true →
      ∀ name, (d.attribute? id "ReturnType").map ShortName.ofReturnType = some name → name ∉ more)
    (goneOutside : ∀ name ∈ more, name ∉ kept) : d.Intact kept more :=
  { h with functionImports := functionImports, goneOutside := goneOutside }

namespace Pruning

variable {d : Document} {g : NavigationGraph} {closure : Closure} (arena : d.Arena)
  (conv : d.Conventional) (built : d.navigation = .ok g)
include arena conv built

variable {id : NodeId} (there : id ∈ (run g closure d).document.elements) {name : ShortName}
include there

theorem setOfKept (own : d.hasKind .entitySet id = true)
    (named : d.reference? id "EntityType" = some name) : name ∈ closure.entities := by
  by_contra outside
  have lose := stagesLose arena g closure
  refine unchosen arena conv there own rfl (.entitySet (memEntitySets.mpr ⟨?_, name, named, outside⟩))
  exact (Document.memInContainers built arena conv (.refl d (Chosen g closure d))
    (chosenRemovable arena built) rfl).mpr ⟨lose.toEnd.elementBefore arena there, own⟩

theorem typeKept (own : d.hasKind .entityType id = true) (named : d.reference? id "Name" = some name) :
    name ∈ closure.entities := by
  by_contra outside
  have lose := stagesLose arena g closure
  refine unchosen arena conv there own rfl
    (.entityType ((memEntityTypes built).mpr ⟨?_, name, named, outside⟩))
  exact (conv.memFindAll (by decide)).mpr ⟨lose.toEnd.elementBefore arena there, own⟩

theorem endOfKept (own : d.hasKind .associationEnd id = true) {association : NodeId}
    (above : association ∈ (run g closure d).document.ancestors id)
    (ownAbove : d.hasKind .association association = true)
    (named : d.reference? id "Type" = some name) : name ∈ closure.entities := by
  by_contra outside
  have lose := stagesLose arena g closure
  have arenaTypes := lose.toTypes.arena arena
  have thereAbove := (lose.toEnd.arena arena).elementAbove there above
  have before := lose.fromTypes.elementBefore arenaTypes thereAbove
  have attached := ((lose.toEnd.arena arena).memElements.mp there).2
  refine unchosen arena conv thereAbove ownAbove rfl
    (.association (memAssociations.mpr ⟨?_, id, ?_, name, ?_, outside⟩))
  · exact (Document.memInSchemas built arena conv lose.toTypes (chosenRemovable arena built) rfl).mpr
      ⟨before, lose.toTypes.hasKindSame _ ▸ ownAbove⟩
  · refine ((lose.toTypes.conventional arena conv).memFindBelow arenaTypes (by decide)
      (arenaTypes.memElements.mp before).2).mpr ⟨lose.toTypes.hasKindSame _ ▸ own, ?_⟩
    exact lose.fromTypes.ancestorsSame arenaTypes attached ▸ above
  · exact Document.referenceSame lose.toTypes ▸ named

theorem propertyOfLeft (own : d.hasKind .navigationProperty id = true) {entityType : NodeId}
    (above : (run g closure d).document.parent? id = some entityType) {typeName : ShortName}
    (namedType : d.reference? entityType "Name" = some typeName)
    (named : d.reference? id "Relationship" = some name) :
    ∃ association ∈ (run g closure d).document.elements,
      d.hasKind .association association = true ∧ d.reference? association "Name" = some name := by
  by_contra dangling
  have notLeft : name ∉ associationsLeft g (importsRemoval g closure d).document := by
    intro left
    obtain ⟨association, stays, seen, same⟩ := (leftIff arena (conv.tidy arena) built).mp left
    exact dangling ⟨association, stays, Document.recognizedKind seen, same⟩
  have lose := stagesLose arena g closure
  have arenaEnd := lose.toEnd.arena arena
  have arenaImports := lose.toImports.arena arena
  have aboveId := (arenaEnd.memAncestorsChild above).mpr (.inl rfl)
  have thereType := arenaEnd.elementAbove there aboveId
  have before := lose.properties.elementBefore arenaImports thereType
  have ownType : d.hasKind .entityType entityType = true := by
    obtain ⟨parent, same, holding⟩ := (lose.toEnd.conventional arena conv).heldBy there
      (lose.toEnd.hasKindSame _ ▸ own) rfl
    cases above.symm.trans same
    exact lose.toEnd.hasKindSame _ ▸ holding
  refine unchosen arena conv there own rfl (.navigationProperty
    ((memNavigationProperties built).mpr ⟨⟨entityType, ?_, ⟨typeName, namedType, ?_⟩, ?_⟩, name, ?_,
      notLeft⟩))
  · exact (conv.memFindAll (by decide)).mpr ⟨lose.toEnd.elementBefore arena thereType, ownType⟩
  · exact typeKept arena conv built thereType ownType namedType
  · refine ((lose.toImports.conventional arena conv).memFindBelow arenaImports (by decide)
      (arenaImports.memElements.mp before).2).mpr ⟨lose.toImports.hasKindSame _ ▸ own, ?_⟩
    exact lose.properties.ancestorsSame arenaImports (arenaEnd.memElements.mp there).2 ▸ aboveId
  · exact Document.referenceSame lose.toImports ▸ named

theorem importOfLeft (own : d.hasKind .functionImport id = true)
    (named : (d.attribute? id "ReturnType").map ShortName.ofReturnType = some name) :
    name ∉ gone g closure d := by
  intro lost
  have lose := stagesLose arena g closure
  refine unchosen arena conv there own rfl
    (.functionImport (memFunctionImports.mpr ⟨?_, name, ?_, lost, memGone lost⟩))
  · exact (Document.memInContainers built arena conv lose.toAssociations
      (chosenRemovable arena built) rfl).mpr
      ⟨lose.fromAssociations.elementBefore (lose.toAssociations.arena arena) there,
        lose.toAssociations.hasKindSame _ ▸ own⟩
  · exact lose.toAssociations.attributeSame ▸ named

omit there

theorem runIntact (closure : Closure) :
    (run g closure d).document.Intact closure.entities (gone g closure d) := by
  have lose := stagesLose arena g closure
  have kinds := lose.toEnd.hasKindSame
  have references := Document.referenceSame lose.toEnd
  refine ⟨fun id there own name named => ?_, fun id there own name named => ?_,
    fun id there own a above ownAbove name named => ?_,
    fun id there own entityType above namedType name named => ?_,
    fun id there own name named => ?_, fun name => memGone⟩
  · exact setOfKept arena conv built there (kinds _ ▸ own) (references ▸ named)
  · exact typeKept arena conv built there (kinds _ ▸ own) (references ▸ named)
  · exact endOfKept arena conv built there (kinds _ ▸ own) above (kinds _ ▸ ownAbove)
      (references ▸ named)
  · rw [references] at namedType named ⊢
    rw [kinds] at own ⊢
    obtain ⟨typeName, h⟩ := Option.isSome_iff_exists.mp namedType
    exact propertyOfLeft arena conv built there own above h named
  · exact importOfLeft arena conv built there (kinds _ ▸ own) (lose.toEnd.attributeSame ▸ named)

end Pruning

theorem pruningLeavesNothingDangling {d : Document} (reached : d.Reached) (conv : d.Conventional)
    {requested : List ShortName} {pruned : Logged Pruned} (ok : d.prune requested = .ok pruned) :
    pruned.value.document.Intact pruned.value.closure.entities
      pruned.value.report.removedEntities := by
  obtain ⟨g, built, _, left, report⟩ := Document.pruneParts ok
  rw [left, report, Pruning.reportGone]
  exact Pruning.runIntact reached.arena conv built _

theorem oneWayIntact : ∃ d pruned, Document.parse oneWay = .ok d ∧
    d.prune [⟨"B"⟩] = .ok pruned ∧ pruned.value.document ≠ d ∧
    pruned.value.document.Intact pruned.value.closure.entities
      pruned.value.report.removedEntities := by
  obtain ⟨d, read, facts⟩ := Document.okWith (x := Document.parse oneWay)
    (p := fun d => decide d.Conventional && (d.prune [⟨"B"⟩]).toOption.any fun pruned =>
      pruned.value.document ≠ d)
    (by decide +kernel)
  obtain ⟨conv, prunes⟩ := Bool.and_eq_true_iff.mp facts
  obtain ⟨pruned, ok, smaller⟩ := Document.okWith prunes
  have intact := pruningLeavesNothingDangling (.parsed read) (of_decide_eq_true conv) ok
  exact ⟨d, pruned, read, ok, of_decide_eq_true smaller, intact⟩

end EdmxPruning
