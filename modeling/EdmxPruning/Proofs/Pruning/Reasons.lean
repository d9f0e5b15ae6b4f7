import Mathlib.Tactic.ByContra
import EdmxPruning.Proofs.Pruning.Removals

/-! Nothing is removed without a reason. In documents of any layout, an element that a run detaches is
of one of five kinds and refers to what is not kept. -/
namespace EdmxPruning

namespace Document

/- Why an element goes, in terms of the document before the run: `kept` are the types of the closure,
`gone` those that lost an entity set, and `left` the names of the associations that the schemas yield
when the last pass starts. -/
inductive Reason (d : Document) (kept gone left : NameSet) (id : NodeId) : Prop where
  | entitySet (own : d.hasKind .entitySet id = true) {name : ShortName}
      (refers : d.reference? id "EntityType" = some name) (outside : name ∉ kept)
      (counted : name ∈ gone)
  | entityType (own : d.hasKind .entityType id = true) {name : ShortName}
      (named : d.reference? id "Name" = some name) (outside : name ∉ kept)
  | association (own : d.hasKind .association id = true) {role : NodeId}
      (below : role ∈ d.descendants id) (ownRole : d.hasKind .associationEnd role = true)
      {name : ShortName} (typed : d.reference? role "Type" = some name) (outside : name ∉ kept)
  | functionImport (own : d.hasKind .functionImport id = true) {name : ShortName}
      (returns : (d.attribute? id "ReturnType").map ShortName.ofReturnType = some name)
      (counted : name ∈ gone) (outside : name ∉ kept)
  | navigationProperty (own : d.hasKind .navigationProperty id = true) {entityType : NodeId}
      (below : id ∈ d.descendants entityType) (ownType : d.hasKind .entityType entityType = true)
      {name : ShortName} (named : d.reference? entityType "Name" = some name) (inside : name ∈ kept)
      {relationship : ShortName} (refers : d.reference? id "Relationship" = some relationship)
      (dangling : relationship ∉ left)

end Document

namespace Pruning

variable {d : Document} {g : NavigationGraph} {closure : Closure} {id : NodeId}

theorem detachedChosen (lose : StagesLose g closure d) (element : d.isElement id = true)
    (before : (d.parent? id).isSome = true)
    (after : (run g closure d).document.parent? id = none) : Chosen g closure d id := by
  by_contra spared
  rw [← lose.toEnd.parentKept element spared, after] at before
  cases before

theorem foundBelow {m : Document} {lost : NodeId → Prop} (arena : d.Arena) (loses : d.Loses m lost)
    {kind : ElementKind} {scope x : NodeId} (found : x ∈ m.find kind (some scope)) :
    x ∈ d.descendants scope ∧ d.hasKind kind x = true := by
  obtain ⟨inside, own⟩ := Document.memFind found
  rw [loses.hasKindSame] at own
  have above := ((loses.arena arena).memDescendants.mp inside).2
  exact ⟨arena.memDescendants.mpr ⟨Document.hasKindElement own, loses.ancestorsBefore arena above⟩,
    own⟩

theorem reasonOfChosen (arena : d.Arena) (built : d.navigation = .ok g)
    (before : (d.parent? id).isSome = true)
    (chosen : Chosen g closure d id) : d.Reason closure.entities (gone g closure d)
      (associationsLeft g (importsRemoval g closure d).document) id := by
  have lose := stagesLose arena g closure
  cases chosen with
  | entitySet h =>
    obtain ⟨yielded, name, refers, outside⟩ := memEntitySets.mp h
    exact .entitySet (hasKindScoped yielded) refers outside
      (chosenSetCounted arena h before refers)
  | entityType h =>
    obtain ⟨found, name, named, outside⟩ := (memEntityTypes built).mp h
    exact .entityType (Document.memFind found).2 named outside
  | association h =>
    obtain ⟨yielded, role, found, name, typed, outside⟩ := memAssociations.mp h
    obtain ⟨below, ownRole⟩ := foundBelow arena lose.toTypes found
    have own := hasKindScoped yielded
    rw [lose.toTypes.hasKindSame] at own
    rw [Document.referenceSame lose.toTypes] at typed
    exact .association own below ownRole typed outside
  | functionImport h =>
    obtain ⟨yielded, name, returns, counted, outside⟩ := memFunctionImports.mp h
    have own := hasKindScoped yielded
    rw [lose.toAssociations.hasKindSame] at own
    rw [lose.toAssociations.attributeSame] at returns
    exact .functionImport own returns counted outside
  | navigationProperty h =>
    obtain ⟨⟨entityType, foundType, ⟨name, named, inside⟩, found⟩, relationship, refers, dangling⟩ :=
      (memNavigationProperties built).mp h
    obtain ⟨below, own⟩ := foundBelow arena lose.toImports found
    rw [Document.referenceSame lose.toImports] at refers
    exact .navigationProperty own below (Document.memFind foundType).2 named inside refers dangling

end Pruning

open Pruning in
theorem nothingGoesWithoutReason {d : Document} (reached : d.Reached) {requested : List ShortName}
    {pruned : Logged Pruned} (ok : d.prune requested = .ok pruned) :
    (∃ g last, d.navigation = .ok g ∧
      last = (importsRemoval g pruned.value.closure d).document ∧
      pruned.value.document =
        (last.removeAll (navigationProperties g pruned.value.closure last)).document ∧
      ∀ id, d.isElement id = true → (d.parent? id).isSome = true →
        pruned.value.document.parent? id = none →
        d.Reason pruned.value.closure.entities pruned.value.report.removedEntities
          (associationsLeft g last) id) ∧
    ∀ name ∈ pruned.value.report.removedEntities, name ∉ pruned.value.closure.entities := by
  obtain ⟨g, built, _, after, report⟩ := Document.pruneParts ok
  have lose := stagesLose reached.arena g pruned.value.closure
  rw [report, reportGone]
  refine ⟨⟨g, _, built, rfl, after, ?_⟩, fun name => memGone⟩
  intro id element before detached
  rw [after] at detached
  exact reasonOfChosen reached.arena built before (detachedChosen lose element before detached)

def fiveReasons : String :=
  "<Schema><EntityContainer><EntitySet EntityType=\"B\"/>" ++
  "<FunctionImport ReturnType=\"Collection(B)\"/></EntityContainer><EntityType Name=\"A\">" ++
  "<NavigationProperty Relationship=\"Q\"/></EntityType><EntityType Name=\"B\"/>" ++
  "<Association Name=\"R\"><End Type=\"B\"/></Association></Schema>"

open Pruning in
theorem reasonsOfFive : ∃ d g pruned, Document.parse fiveReasons = .ok d ∧ d.navigation = .ok g ∧
    d.prune [⟨"A"⟩] = .ok pruned ∧ ∀ id ∈ [2, 3, 5, 6, 7],
      pruned.value.document.parent? id = none ∧
      d.Reason pruned.value.closure.entities pruned.value.report.removedEntities
        (associationsLeft g (importsRemoval g pruned.value.closure d).document) id := by
  have chars : fiveReasons.toList = _ := Document.charsAppend (Document.charsAppend
    (Document.charsAppend (Document.charsOf rfl) (Document.charsOf rfl)) (Document.charsOf rfl))
    (Document.charsOf rfl)
  obtain ⟨d, read, facts⟩ := Document.okWith (x := Document.parse fiveReasons)
    (p := fun d => (d.prune [⟨"A"⟩]).toOption.any fun pruned : Logged Pruned =>
      [2, 3, 5, 6, 7].all fun id => d.isElement id && (d.parent? id).isSome &&
        decide (pruned.value.document.parent? id = none))
    (by rw [Document.parseChars chars]; decide +kernel)
  obtain ⟨pruned, ok, detached⟩ := Document.okWith facts
  obtain ⟨⟨g, last, built, same, _, reasons⟩, _⟩ := nothingGoesWithoutReason (.parsed read) ok
  refine ⟨d, g, pruned, read, built, ok, fun id member => ?_⟩
  have shape := List.all_eq_true.mp detached id member
  simp only [Bool.and_eq_true, decide_eq_true_eq] at shape
  obtain ⟨⟨element, before⟩, after⟩ := shape
  exact ⟨after, same ▸ reasons id element before after⟩

end EdmxPruning
