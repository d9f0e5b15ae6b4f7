import EdmxPruning.Proofs.Pruning.Persistence
import EdmxPruning.Proofs.Pruning.Removals

/-! Pruning is complete in one run, if the document is tidy: whatever a second run with the same
closure would choose, the first run has chosen and detached. -/
namespace EdmxPruning

namespace Pruning

theorem runIdle {g : NavigationGraph} {closure : Closure} {d : Document}
    (sets : d.removeAll (entitySets g closure d) = ⟨d, []⟩)
    (types : d.removeAll (entityTypes g closure) = ⟨d, []⟩)
    (associations : d.removeAll (associations g closure d) = ⟨d, []⟩)
    (imports : functionImports closure ∅ g d = [])
    (properties : d.removeAll (navigationProperties g closure d) = ⟨d, []⟩) :
    run g closure d = ⟨d, ElementKind.removable.map (Pass.mk · []), ∅⟩ := by
  have gone : NameSet.ofList ([].filterMap (d.reference? · "EntityType")) = ∅ := rfl
  unfold run
  simp only [sets, gone, types, associations, imports, Document.removeAll, properties]
  rfl

theorem idleReport (d : Document) :
    (Outcome.mk d (ElementKind.removable.map (Pass.mk · [])) ∅).report = {} := rfl

section Again

variable {d : Document} {g again : NavigationGraph} {closure : Closure} (arena : d.Arena)
  (tidy : d.Tidy) (built : d.navigation = .ok g)
  (builtAgain : (run g closure d).document.navigation = .ok again)
include arena tidy built builtAgain

theorem sectionsAgain : again.sections = g.sections := by
  have lose := stagesLose arena g closure
  have same := sectionsSame arena tidy built lose.toEnd
  rw [(Document.navigationParts builtAgain).1] at same
  exact Except.ok.inj same

theorem setChosenBefore {id : NodeId}
    (chosen : id ∈ entitySets again closure (run g closure d).document) :
    Chosen g closure d id := by
  have lose := stagesLose arena g closure
  obtain ⟨found, reference⟩ := memEntitySets.mp chosen
  rw [sectionsAgain arena tidy built builtAgain] at found
  rw [Document.referenceSame lose.toEnd] at reference
  have before := ((memSetsFound arena tidy built lose.toEnd).mp found).1
  exact .entitySet (memEntitySets.mpr ⟨before, reference⟩)

theorem typeChosenBefore {id : NodeId} (chosen : id ∈ entityTypes again closure) :
    Chosen g closure d id := by
  have lose := stagesLose arena g closure
  obtain ⟨found, reference⟩ := (memEntityTypes builtAgain).mp chosen
  rw [Document.referenceSame lose.toEnd] at reference
  have before := ((lose.toEnd.memFindNarrowed arena Document.noScope
    (tidy.definitions .entityType (by decide))).mp found).1
  exact .entityType ((memEntityTypes built).mpr ⟨before, reference⟩)

theorem associationChosenBefore {id : NodeId}
    (chosen : id ∈ associations again closure (run g closure d).document) :
    Chosen g closure d id := by
  have lose := stagesLose arena g closure
  have same : associations again closure (run g closure d).document =
      associations g closure (run g closure d).document := by
    unfold associations
    rw [sectionsAgain arena tidy built builtAgain]
  rw [same] at chosen
  obtain ⟨there, rest⟩ := (memChosenAssociations arena tidy built lose.toEnd).mp chosen
  have thereThen := lose.fromTypes.elementBefore (lose.toTypes.arena arena) there
  exact .association ((memChosenAssociations arena tidy built lose.toTypes).mpr ⟨thereThen, rest⟩)

theorem leftAgain {name : ShortName}
    (left : name ∈ associationsLeft g (importsRemoval g closure d).document) :
    name ∈ associationsLeft again (run g closure d).document := by
  have lose := stagesLose arena g closure
  obtain ⟨association, there, seen, named⟩ := (leftIff arena tidy built).mp left
  rw [← Document.referenceSame lose.toEnd] at named
  rw [memAssociationsLeft, sectionsAgain arena tidy built builtAgain]
  exact ⟨association, (memAssociationsFound arena tidy built lose.toEnd).mpr ⟨there, seen⟩, named⟩

theorem propertyChosenBefore {id : NodeId}
    (chosen : id ∈ navigationProperties again closure (run g closure d).document) :
    Chosen g closure d id := by
  have lose := stagesLose arena g closure
  have arenaImports := lose.toImports.arena arena
  obtain ⟨⟨entityType, foundLeft, ⟨name, named, kept⟩, inside⟩, relationship, refers, dangling⟩ :=
    (memNavigationProperties builtAgain).mp chosen
  rw [Document.referenceSame lose.toEnd] at named refers
  obtain ⟨found, thereType⟩ := (lose.toEnd.memFindNarrowed arena Document.noScope
    (tidy.definitions .entityType (by decide))).mp foundLeft
  obtain ⟨insideBefore, there⟩ := (memPropertiesFound arena tidy lose.toEnd found thereType).mp inside
  have insideThen := (memPropertiesFound arena tidy lose.toImports found
    (lose.properties.elementBefore arenaImports thereType)).mpr
    ⟨insideBefore, lose.properties.elementBefore arenaImports there⟩
  rw [← Document.referenceSame lose.toImports] at refers
  exact .navigationProperty ((memNavigationProperties built).mpr
    ⟨⟨entityType, found, ⟨name, named, kept⟩, insideThen⟩, relationship, refers,
      fun left => dangling (leftAgain arena tidy built builtAgain left)⟩)

theorem runAgain : run again closure (run g closure d).document =
    ⟨(run g closure d).document, ElementKind.removable.map (Pass.mk · []), ∅⟩ := by
  have lose := stagesLose arena g closure
  have nothing {ids : List NodeId} (before : ∀ id ∈ ids, Chosen g closure d id) :
      (run g closure d).document.removeAll ids = ⟨(run g closure d).document, []⟩ :=
    Document.removeAllDetached fun id member => lose.chosenDetached arena (before id member)
  have sets := nothing fun id => setChosenBefore arena tidy built builtAgain
  have types := nothing fun id => typeChosenBefore arena tidy built builtAgain
  have associations := nothing fun id => associationChosenBefore arena tidy built builtAgain
  have properties := nothing fun id => propertyChosenBefore arena tidy built builtAgain
  have imports : functionImports closure ∅ again (run g closure d).document = [] := by
    refine List.eq_nil_iff_forall_not_mem.mpr fun id member => ?_
    obtain ⟨_, name, _, lost, _⟩ := memFunctionImports.mp member
    cases lost
  exact runIdle sets types associations imports properties

end Again

end Pruning

open Pruning in
theorem secondRunRemovesNothing {d : Document} (reached : d.Reached) (tidy : d.Tidy)
    {requested : List ShortName} {pruned : Logged Pruned} (ok : d.prune requested = .ok pruned) :
    ∃ again, pruned.value.document.prune requested = .ok again ∧
      again.value = { pruned.value with report := {} } := by
  obtain ⟨g, built, closed, left, _⟩ := Document.pruneParts ok
  have arena := reached.arena
  obtain ⟨again, okAgain⟩ := tidy.pruneAgain arena ok requested
  obtain ⟨later, builtAgain, closedAgain, leftAgain, reportAgain⟩ := Document.pruneParts okAgain
  have builtLeft := builtAgain
  rw [left, closed] at builtLeft
  have same : again.value.closure = pruned.value.closure := by
    rw [closedAgain, closed]
    exact closureLeft arena tidy built builtLeft fun n asked =>
      NavigationGraph.memClosure.mpr ⟨n, asked, .refl⟩
  rw [← closed] at builtLeft
  have idle := runAgain arena tidy built builtLeft
  rw [same, left, idle] at leftAgain reportAgain
  rw [idleReport] at reportAgain
  refine ⟨again, okAgain, ?_⟩
  show again.value = ⟨pruned.value.document, pruned.value.closure, {}⟩
  rw [left, ← leftAgain, ← same, ← reportAgain]

def acrossNamespaces : String :=
  "<Schema xmlns=\"u\"><EntityContainer><EntitySet xmlns=\"\" EntityType=\"B\"/></EntityContainer>" ++
  "<EntityType Name=\"A\"/></Schema>"

theorem oneRunAcrossNamespaces : ∃ d pruned again, Document.parse acrossNamespaces = .ok d ∧
    ¬ d.Conventional ∧ d.prune [⟨"A"⟩] = .ok pruned ∧ pruned.value.report.entitySets = 1 ∧
    pruned.value.document.prune [⟨"A"⟩] = .ok again ∧
    again.value = { pruned.value with report := {} } := by
  have chars : acrossNamespaces.toList = _ :=
    Document.charsAppend (Document.charsOf rfl) (Document.charsOf rfl)
  obtain ⟨d, read, facts⟩ := Document.okWith (x := Document.parse acrossNamespaces)
    (p := fun d => decide (d.Tidy ∧ ¬ d.Conventional) &&
      (d.prune [⟨"A"⟩]).toOption.any fun pruned : Logged Pruned =>
        decide (pruned.value.report.entitySets = 1))
    (by rw [Document.parseChars chars]; decide +kernel)
  obtain ⟨shape, runs⟩ := Bool.and_eq_true_iff.mp facts
  obtain ⟨tidy, mixed⟩ := of_decide_eq_true shape
  obtain ⟨pruned, ok, removed⟩ := Document.okWith runs
  obtain ⟨again, okAgain, same⟩ := secondRunRemovesNothing (.parsed read) tidy ok
  exact ⟨d, pruned, again, read, mixed, ok, of_decide_eq_true removed, okAgain, same⟩

def RemovesMore (text : String) (requested : List ShortName) : Prop :=
  ∃ d pruned again, Document.parse text = .ok d ∧ d.prune requested = .ok pruned ∧
    pruned.value.document.prune requested = .ok again ∧ again.value.report.isEmpty = false

theorem removesMoreOf {text : String} {cs : List Char} {requested : List ShortName}
    (chars : text.toList = cs) (runs : ((Document.ofChars? cs).any fun d =>
      (d.prune requested).toOption.any fun pruned : Logged Pruned =>
        (pruned.value.document.prune requested).toOption.any fun again : Logged Pruned =>
          !again.value.report.isEmpty) = true) : RemovesMore text requested := by
  rw [← Document.parseChars chars] at runs
  obtain ⟨d, read, first⟩ := Document.okWith runs
  obtain ⟨pruned, ok, second⟩ := Document.okWith first
  obtain ⟨again, okAgain, more⟩ := Document.okWith second
  exact ⟨d, pruned, again, read, ok, okAgain, by simpa using more⟩

/- The entity set of the default namespace hides the other one until it is removed. -/
def mixedContainer : String :=
  "<Schema xmlns=\"u\"><EntityContainer><EntitySet EntityType=\"A\"/>" ++
  "<EntitySet xmlns=\"\" EntityType=\"B\"/></EntityContainer></Schema>"

/- The requested type goes with the type around it, and only then nothing leads to the other one. -/
def nestedTypes : String :=
  "<Schema><EntityContainer/><EntityType Name=\"X\"><EntityType Name=\"A\">" ++
  "<NavigationProperty Relationship=\"R\"/></EntityType></EntityType><EntityType Name=\"B\"/>" ++
  "<Association Name=\"R\"><End Type=\"B\"/></Association></Schema>"

/- The closure follows an association that no schema yields, so the property goes and then its type. -/
def strayAssociation : String :=
  "<E><Schema><EntityContainer/><EntityType Name=\"A\"><NavigationProperty Relationship=\"R\"/>" ++
  "</EntityType><EntityType Name=\"B\"/></Schema><Association Name=\"R\"><End Type=\"B\"/>" ++
  "</Association></E>"

open Document in
theorem secondRunMayRemoveMore : RemovesMore mixedContainer [⟨"C"⟩] ∧
    RemovesMore nestedTypes [⟨"A"⟩] ∧ RemovesMore strayAssociation [⟨"A"⟩] := by
  have mixed : mixedContainer.toList = _ := charsAppend (charsOf rfl) (charsOf rfl)
  have nested : nestedTypes.toList = _ :=
    charsAppend (charsAppend (charsOf rfl) (charsOf rfl)) (charsOf rfl)
  have stray : strayAssociation.toList = _ :=
    charsAppend (charsAppend (charsOf rfl) (charsOf rfl)) (charsOf rfl)
  refine ⟨removesMoreOf mixed ?_, removesMoreOf nested ?_, removesMoreOf stray ?_⟩
  · decide +kernel
  · decide +kernel
  · decide +kernel

end EdmxPruning
