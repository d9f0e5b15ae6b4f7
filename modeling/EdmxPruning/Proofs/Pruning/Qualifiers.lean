import EdmxPruning.Proofs.Document.Likeness
import EdmxPruning.Proofs.Navigation.Reachability
import EdmxPruning.Proofs.Pruning.Passes

/-! Qualifiers never matter. Two documents that are alike are pruned alike: every pass chooses the same
nodes in both and leaves documents that are alike again. -/
namespace EdmxPruning

theorem NameSet.ofListSame {first second : List ShortName} (same : ∀ n, n ∈ first ↔ n ∈ second) :
    NameSet.ofList first = NameSet.ofList second :=
  memExt fun n => by rw [memOfList, memOfList, same]

theorem NavigationGraph.closureSame (g : NavigationGraph) {first second : List ShortName}
    (same : ∀ n, n ∈ first ↔ n ∈ second) : g.closure first = g.closure second := by
  unfold closure
  rw [NameSet.ofListSame same]

namespace Document.Alike

variable {a b : Document}

theorem removeAll (same : a.Alike b) (ids : List NodeId) :
    (a.removeAll ids).removed = (b.removeAll ids).removed ∧
      (a.removeAll ids).document.Alike (b.removeAll ids).document := by
  induction ids generalizing a b with
  | nil => exact ⟨rfl, same⟩
  | cons id rest ih =>
    unfold Document.removeAll
    rcases same.remove id with ⟨inA, inB⟩ | ⟨a', b', inA, inB, smaller⟩
    · rw [inA, inB]
      exact ih same
    · rw [inA, inB]
      obtain ⟨removed, left⟩ := ih smaller
      exact ⟨congrArg (id :: ·) removed, left⟩

end Document.Alike

namespace Pruning
open Document

section Choices

variable {a b : Document} (same : a.Alike b) (g : NavigationGraph) (closure : Closure)
include same

theorem inContainersSame (s : Sections) : s.inContainers a = s.inContainers b := by
  funext kind
  unfold Sections.inContainers
  rw [same.findSame]

theorem inSchemasSame (s : Sections) : s.inSchemas a = s.inSchemas b := by
  funext kind
  unfold Sections.inSchemas
  rw [same.findSame]

theorem refersOutsideSame {key : String} (listed : key ∈ referenceKeys) :
    refersOutside a closure key = refersOutside b closure key := by
  funext id
  unfold refersOutside
  rw [same.references id key listed]

theorem entitySetsSame : entitySets g closure a = entitySets g closure b := by
  unfold entitySets
  rw [inContainersSame same, refersOutsideSame same closure (by decide)]

theorem associationsSame : associations g closure a = associations g closure b := by
  unfold associations
  rw [inSchemasSame same, same.findSame, refersOutsideSame same closure (by decide)]

theorem functionImportsSame (gone : NameSet) :
    functionImports closure gone g a = functionImports closure gone g b := by
  have returns (id : NodeId) : (a.attribute? id "ReturnType").map ShortName.ofReturnType =
      (b.attribute? id "ReturnType").map ShortName.ofReturnType := same.returns id
  unfold functionImports
  rw [inContainersSame same]
  simp only [returns]

theorem associationsLeftSame : associationsLeft g a = associationsLeft g b := by
  unfold associationsLeft
  rw [inSchemasSame same, same.referenceSame "Name" (by decide)]

theorem navigationPropertiesSame :
    navigationProperties g closure a = navigationProperties g closure b := by
  have relationships (id : NodeId) :
      a.reference? id "Relationship" = b.reference? id "Relationship" :=
    same.references id "Relationship" (by decide)
  unfold navigationProperties
  simp only [associationsLeftSame same, same.findSame, relationships]

end Choices

section Stages

variable {a b : Document} (same : a.Alike b) (g : NavigationGraph) (closure : Closure)
include same

theorem setsSame : (setsRemoval g closure a).removed = (setsRemoval g closure b).removed ∧
    (setsRemoval g closure a).document.Alike (setsRemoval g closure b).document := by
  unfold setsRemoval
  rw [entitySetsSame same]
  exact same.removeAll _

theorem goneSame : gone g closure a = gone g closure b := by
  unfold gone
  rw [(setsSame same g closure).1, same.referenceSame "EntityType" (by decide)]

theorem typesSame : (typesRemoval g closure a).removed = (typesRemoval g closure b).removed ∧
    (typesRemoval g closure a).document.Alike (typesRemoval g closure b).document :=
  (setsSame same g closure).2.removeAll _

theorem associationsRemovalSame :
    (associationsRemoval g closure a).removed = (associationsRemoval g closure b).removed ∧
    (associationsRemoval g closure a).document.Alike (associationsRemoval g closure b).document := by
  have before := (typesSame same g closure).2
  unfold associationsRemoval
  simp only [associationsSame before]
  exact before.removeAll _

theorem importsSame : (importsRemoval g closure a).removed = (importsRemoval g closure b).removed ∧
    (importsRemoval g closure a).document.Alike (importsRemoval g closure b).document := by
  have before := (associationsRemovalSame same g closure).2
  unfold importsRemoval
  simp only [functionImportsSame before, goneSame same]
  exact before.removeAll _

theorem propertiesSame :
    (propertiesRemoval g closure a).removed = (propertiesRemoval g closure b).removed ∧
    (propertiesRemoval g closure a).document.Alike (propertiesRemoval g closure b).document := by
  have before := (importsSame same g closure).2
  unfold propertiesRemoval
  simp only [navigationPropertiesSame before]
  exact before.removeAll _

end Stages

theorem removedBySame {a b : Document} (same : a.Alike b) (g : NavigationGraph) (closure : Closure)
    (kind : ElementKind) : removedBy g closure a kind = removedBy g closure b kind := by
  cases kind with
  | entitySet => exact (setsSame same g closure).1
  | entityType => exact (typesSame same g closure).1
  | association => exact (associationsRemovalSame same g closure).1
  | functionImport => exact (importsSame same g closure).1
  | navigationProperty => exact (propertiesSame same g closure).1
  | dataServices | schema | entityContainer | associationEnd => rfl

theorem runSame {a b : Document} (same : a.Alike b) (g : NavigationGraph) (closure : Closure) :
    (run g closure a).report = (run g closure b).report ∧
      (run g closure a).document.Alike (run g closure b).document := by
  rw [runStages, runStages]
  refine ⟨?_, (propertiesSame same g closure).2⟩
  unfold Outcome.report
  simp only [removedBySame same, goneSame same]

end Pruning

theorem qualifiersNeverMatter {a b : Document} (same : a.Alike b) {first second : List ShortName}
    (asked : ∀ n, n ∈ first ↔ n ∈ second) :
    (∃ e, a.prune first = .error e ∧ b.prune second = .error e) ∨
    ∃ p q, a.prune first = .ok p ∧ b.prune second = .ok q ∧
      p.value.closure = q.value.closure ∧ p.value.report = q.value.report ∧
      p.value.document.Alike q.value.document ∧
      ∀ id, ((a.parent? id).isSome = true ∧ p.value.document.parent? id = none) ↔
        ((b.parent? id).isSome = true ∧ q.value.document.parent? id = none) := by
  cases built : b.navigation with
  | error e =>
    have failed := same.navigationSame.trans built
    exact .inl ⟨e, Document.pruneError failed first, Document.pruneError built second⟩
  | ok g =>
    have builtA := same.navigationSame.trans built
    obtain ⟨p, okA⟩ := Document.pruneOf builtA first
    obtain ⟨q, okB⟩ := Document.pruneOf built second
    obtain ⟨_, ownA, closureA, leftA, reportA⟩ := Document.pruneParts okA
    obtain ⟨_, ownB, closureB, leftB, reportB⟩ := Document.pruneParts okB
    cases builtA.symm.trans ownA
    cases built.symm.trans ownB
    have closure : p.value.closure = q.value.closure := by
      rw [closureA, closureB, g.closureSame asked]
    obtain ⟨report, after⟩ := Pruning.runSame same g q.value.closure
    rw [closure] at leftA reportA
    have alike : p.value.document.Alike q.value.document := by
      rw [leftA, leftB]
      exact after
    refine .inr ⟨p, q, okA, okB, closure, ?_, alike, fun id => ?_⟩
    · rw [reportA, reportB, report]
    · rw [same.parents, alike.parents]

/- Metadata in which every reference to the one type carries the same qualifier. -/
def qualified (qualifier : String) : Document where
  nodes := #[⟨.element ⟨"Schema", []⟩ none, none, [1, 4]⟩,
    ⟨.element ⟨"EntityContainer", []⟩ none, some 0, [2, 3]⟩,
    ⟨.element ⟨"EntitySet", [⟨"EntityType", qualifier ++ "B"⟩]⟩ none, some 1, []⟩,
    ⟨.element ⟨"FunctionImport", [⟨"ReturnType", "Collection(" ++ qualifier ++ "B)"⟩]⟩ none,
      some 1, []⟩,
    ⟨.element ⟨"EntityType", [⟨"Name", "B"⟩]⟩ none, some 0, []⟩]
  topLevel := [0]
  root := 0
  defaultNamespace := Document.metadataNamespace
  cuts := Array.replicate 5 false
  sizes := rfl

theorem prunedAlike : ∃ p q, qualified "NS." ≠ qualified " Self." ∧
    (qualified "NS.").prune [⟨"A"⟩] = .ok p ∧ (qualified " Self.").prune [⟨"A"⟩, ⟨"A"⟩] = .ok q ∧
    p.value.closure = q.value.closure ∧ p.value.report = q.value.report ∧
    p.value.report.total = 3 := by
  have same : (qualified "NS.").Alike (qualified " Self.") := by decide +kernel
  obtain ⟨p, ok, total⟩ := Document.okWith (x := (qualified "NS.").prune [⟨"A"⟩])
    (p := fun p => decide (p.value.report.total = 3)) (by decide +kernel)
  have asked : ∀ n : ShortName, n ∈ [⟨"A"⟩] ↔ n ∈ [⟨"A"⟩, ⟨"A"⟩] := by simp
  rcases qualifiersNeverMatter same asked with
    ⟨e, failed, _⟩ | ⟨p', q, okFirst, okSecond, closure, report, _⟩
  · cases ok.symm.trans failed
  · cases ok.symm.trans okFirst
    exact ⟨p, q, by decide +kernel, ok, okSecond, closure, report, of_decide_eq_true total⟩

end EdmxPruning
