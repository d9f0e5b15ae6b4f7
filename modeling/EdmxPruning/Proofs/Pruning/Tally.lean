import EdmxPruning.Proofs.Pruning.Persistence
import EdmxPruning.Proofs.Pruning.Removals

/-! What is counted. In a conventional document each pass removes all that it chooses, once, and for
every kind but navigation properties that is what is no longer there. -/
namespace EdmxPruning

theorem ElementKind.holdersStay {kind : ElementKind} (listed : kind ∈ removable)
    (other : kind ≠ .navigationProperty) : ∀ above ∈ kind.holders, above ∉ removable := by
  revert listed other
  cases kind <;> decide

namespace Pruning

theorem runReport (g : NavigationGraph) (closure : Closure) (d : Document) :
    (run g closure d).report =
      { entitySets := (removedBy g closure d .entitySet).length
        entityTypes := (removedBy g closure d .entityType).length
        associations := (removedBy g closure d .association).length
        functionImports := (removedBy g closure d .functionImport).length
        navigationProperties := (removedBy g closure d .navigationProperty).length
        removedEntities := gone g closure d } := by
  rw [runStages]
  simp [Outcome.report, ElementKind.removable, Report.add]

variable {d : Document} {g : NavigationGraph} {closure : Closure} {kind : ElementKind} {id : NodeId}

theorem memGoneRemoved {name : ShortName} : name ∈ gone g closure d ↔
    ∃ id ∈ removedBy g closure d .entitySet, d.reference? id "EntityType" = some name := by
  unfold gone
  rw [NameSet.memOfList, List.mem_filterMap]
  rfl

section Arena

variable (arena : d.Arena)
include arena

theorem toStage (kind : ElementKind) : d.Loses (stage g closure d kind) (Chosen g closure d) := by
  have lose := stagesLose arena g closure
  cases kind with
  | entityType => exact lose.sets
  | association => exact lose.toTypes
  | functionImport => exact lose.toAssociations
  | navigationProperty => exact lose.toImports
  | entitySet | dataServices | schema | entityContainer | associationEnd => exact .refl d _

theorem removedByNodup (kind : ElementKind) : (removedBy g closure d kind).Nodup :=
  Document.removedNodup ((toStage arena kind).arena arena) _

variable (conv : d.Conventional) (built : d.navigation = .ok g)
include conv built

theorem choiceThere (h : id ∈ choice g closure d kind) : id ∈ (stage g closure d kind).elements := by
  have lose := stagesLose arena g closure
  have only : ∀ x, Chosen g closure d x → d.Removable x := chosenRemovable arena built
  cases kind with
  | entitySet =>
    exact ((Document.memInContainers built arena conv (.refl d (Chosen g closure d)) only rfl).mp
      (memEntitySets.mp h).1).1
  | entityType =>
    obtain ⟨attached, own⟩ := Document.memFind ((memEntityTypes built).mp h).1
    have sets : d.Loses (setsRemoval g closure d).document (· ∈ entitySets g closure d) :=
      Document.removeAllLoses arena _
    apply Document.upperStays arena sets conv (fun x chosen => only x (.entitySet chosen)) (by decide)
      attached own
    apply Document.uncutAfter arena sets attached
    intro chosen
    cases Document.hasKindUnique own (hasKindScoped (memEntitySets.mp chosen).1)
  | association =>
    exact ((Document.memInSchemas built arena conv lose.toTypes only rfl).mp
      (memAssociations.mp h).1).1
  | functionImport =>
    exact ((Document.memInContainers built arena conv lose.toAssociations only rfl).mp
      (memFunctionImports.mp h).1).1
  | navigationProperty =>
    obtain ⟨⟨entityType, found, ⟨name, named, kept⟩, inside⟩, _⟩ :=
      (memNavigationProperties built).mp h
    have there := keptTypeStays arena (conv.tidy arena) built lose.toImports found named kept
    exact (lose.toImports.arena arena).candidateElement (Document.scopeThere there)
      (Document.memFind inside).1
  | dataServices | schema | entityContainer | associationEnd => cases h

theorem memRemovedBy (listed : kind ∈ ElementKind.removable) :
    id ∈ removedBy g closure d kind ↔ id ∈ choice g closure d kind := by
  have lose : d.Loses (stage g closure d kind) (Chosen g closure d) := toStage arena kind
  have elements : ∀ x ∈ choice g closure d kind, (stage g closure d kind).isElement x = true := by
    intro x member
    rw [lose.isElementSame]
    exact Document.recognizedElement (choiceRecognized arena built member)
  refine (Document.memRemoved (lose.arena arena) elements).trans (and_iff_left_of_imp fun h => ?_)
  obtain ⟨holder, holds⟩ := Option.isSome_iff_exists.mp (ElementKind.removableHeld listed)
  have own := Document.recognizedKind (choiceRecognized arena built h)
  rw [← lose.hasKindSame] at own
  obtain ⟨parent, above, _⟩ := (lose.conventional arena conv).heldBy
    (choiceThere arena conv built h) own holds
  rw [above]
  rfl

theorem memRemovedChosen (listed : kind ∈ ElementKind.removable) :
    id ∈ removedBy g closure d kind ↔ Chosen g closure d id ∧ d.hasKind kind id = true := by
  rw [memRemovedBy arena conv built listed]
  constructor
  · intro h
    exact ⟨chosenIff.mpr ⟨kind, listed, h⟩, Document.recognizedKind (choiceRecognized arena built h)⟩
  · intro given
    exact chosenOfKind arena built given.1 given.2

/- Nothing removable stands above these kinds, so each of them goes for its own sake. -/
theorem memRemovedWhole (listed : kind ∈ ElementKind.removable) (other : kind ≠ .navigationProperty) :
    id ∈ removedBy g closure d kind ↔
      (id ∈ d.elements ∧ d.hasKind kind id = true) ∧ id ∉ (run g closure d).document.elements := by
  have lose := (stagesLose arena g closure).toEnd
  have held := ElementKind.removableHeld listed
  constructor
  · intro removed
    have h := (memRemovedBy arena conv built listed).mp removed
    obtain ⟨chosen, own⟩ := (memRemovedChosen arena conv built listed).mp removed
    have attached := (toStage arena kind).elementBefore arena (choiceThere arena conv built h)
    obtain ⟨holder, holds⟩ := Option.isSome_iff_exists.mp held
    exact ⟨⟨attached, own⟩, fun there => unchosen arena conv there own holds chosen⟩
  · intro given
    obtain ⟨⟨attached, own⟩, missing⟩ := given
    refine (memRemovedChosen arena conv built listed).mpr ⟨?_, own⟩
    by_contra spared
    apply missing
    apply Document.clearStays arena lose attached _ (Document.uncutAfter arena lose attached spared)
    intro above higher chosen
    obtain ⟨kindAbove, listedAbove, ownAbove⟩ := chosenRemovable arena built above chosen
    have holds := conv.kindAbove arena attached own held higher
      (ElementKind.removableMetadata listedAbove) ownAbove
    exact ElementKind.holdersStay listed other kindAbove holds listedAbove

theorem removedFromType (removed : id ∈ removedBy g closure d .navigationProperty) :
    id ∈ d.elements ∧ ∃ entityType, d.parent? id = some entityType ∧
      entityType ∈ (run g closure d).document.elements := by
  have lose := stagesLose arena g closure
  have arenaImports := lose.toImports.arena arena
  have chosen := (memRemovedBy arena conv built (by decide)).mp removed
  obtain ⟨⟨entityType, found, ⟨name, named, kept⟩, inside⟩, _⟩ :=
    (memNavigationProperties built).mp chosen
  obtain ⟨below, own⟩ := Document.memFind inside
  rw [lose.toImports.hasKindSame] at own
  have attached := lose.toImports.elementBefore arena (choiceThere arena conv built chosen)
  have above := lose.toImports.ancestorsBefore arena (arenaImports.memDescendants.mp below).2
  exact ⟨attached, entityType, conv.typeOfProperty arena attached own above (Document.memFind found).2,
    keptTypeStays arena (conv.tidy arena) built lose.toEnd found named kept⟩

theorem propertyWithType (attached : id ∈ d.elements) (own : d.hasKind .navigationProperty id = true)
    {entityType : NodeId} (parent : d.parent? id = some entityType)
    (there : entityType ∈ (run g closure d).document.elements)
    (spared : id ∉ removedBy g closure d .navigationProperty) :
    id ∈ (run g closure d).document.elements := by
  have lose := (stagesLose arena g closure).toEnd
  have uncut := Document.uncutAfter arena lose attached fun chosen =>
    spared ((memRemovedChosen arena conv built (by decide)).mpr ⟨chosen, own⟩)
  exact lose.childStays arena there parent (Document.hasKindElement own) uncut

theorem memGoneIff {name : ShortName} : name ∈ gone g closure d ↔
    name ∉ closure.entities ∧ ∃ set ∈ d.elements, d.hasKind .entitySet set = true ∧
      d.reference? set "EntityType" = some name := by
  have found {x : NodeId} : x ∈ g.sections.inContainers d .entitySet ↔
      x ∈ d.elements ∧ d.hasKind .entitySet x = true :=
    Document.memInContainers built arena conv (.refl d (Chosen g closure d))
      (chosenRemovable arena built) rfl
  rw [memGoneRemoved]
  constructor
  · intro given
    obtain ⟨x, removed, refers⟩ := given
    obtain ⟨yielded, other, same, outside⟩ := memEntitySets.mp (Document.removeAllRemoved removed)
    obtain ⟨attached, own⟩ := found.mp yielded
    cases refers.symm.trans same
    exact ⟨outside, x, attached, own, refers⟩
  · intro given
    obtain ⟨outside, x, attached, own, refers⟩ := given
    have chosen : x ∈ entitySets g closure d :=
      memEntitySets.mpr ⟨found.mpr ⟨attached, own⟩, name, refers, outside⟩
    exact ⟨x, (memRemovedBy arena conv built (by decide)).mpr chosen, refers⟩

end Arena

end Pruning
end EdmxPruning
