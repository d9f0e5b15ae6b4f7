import EdmxPruning.Proofs.Document.Blanks
import EdmxPruning.Proofs.Pruning.Maximality
import EdmxPruning.Proofs.Pruning.Tally

/-! Narrowing in two steps is narrowing at once. What the direct way leaves is intact and survives both
steps, what the two steps leave is intact and survives the direct way, so they leave the same. -/
namespace EdmxPruning

namespace Document

variable {d m : Document} (arena : d.Arena) (apart : d.BlanksApart)
include arena apart

theorem BlanksFollow.removeAll (lose : d.Loses m fun _ => True) (follow : d.BlanksFollow m)
    {ids : List NodeId} (elements : ∀ id ∈ ids, d.isElement id = true) :
    d.BlanksFollow (m.removeAll ids).document := by
  induction ids generalizing m with
  | nil => exact follow
  | cons id rest ih =>
    have restElements : ∀ x ∈ rest, d.isElement x = true :=
      fun x member => elements x (List.mem_cons_of_mem _ member)
    unfold Document.removeAll
    cases tried : m.remove? id with
    | none => exact ih lose follow restElements
    | some smaller =>
      have step := (removeLoses (lose.arena arena) tried).weaken fun _ _ => trivial
      exact ih (lose.trans step)
        (follow.remove arena apart lose (elements id List.mem_cons_self) tried) restElements

theorem BlanksFollow.run (lose : d.Loses m fun _ => True) (follow : d.BlanksFollow m)
    {g : NavigationGraph} (built : m.navigation = .ok g) (closure : Closure) :
    d.BlanksFollow (Pruning.run g closure m).document := by
  have arenaM := lose.arena arena
  have stages := Pruning.stagesLose arenaM g closure
  have toStage {m' : Document} (h : m.Loses m' (Pruning.Chosen g closure m)) :
      d.Loses m' fun _ => True := lose.trans (h.weaken fun _ _ => trivial)
  have elements (kind : ElementKind) : ∀ id ∈ Pruning.choice g closure m kind,
      d.isElement id = true := by
    intro id chosen
    rw [← lose.isElementSame]
    exact recognizedElement (Pruning.choiceRecognized arenaM built chosen)
  have sets := follow.removeAll arena apart lose (elements .entitySet)
  have types := sets.removeAll arena apart (toStage stages.sets) (elements .entityType)
  have associations := types.removeAll arena apart (toStage stages.toTypes)
    (elements .association)
  have imports := associations.removeAll arena apart (toStage stages.toAssociations)
    (elements .functionImport)
  exact imports.removeAll arena apart (toStage stages.toImports)
    (elements .navigationProperty)

end Document

/- A document with a wide closure and a narrower one that is applied to what the wide one leaves. -/
structure Narrowing (d : Document) where
  graph : NavigationGraph
  wide : Closure
  later : NavigationGraph
  narrow : Closure
  built : d.navigation = .ok graph
  builtLater : (Pruning.run graph wide d).document.navigation = .ok later
  narrower : ∀ name ∈ narrow.entities, name ∈ wide.entities

namespace Narrowing
open Pruning

variable {d : Document} (n : Narrowing d)

def first : Document := (run n.graph n.wide d).document

def second : Document := (run n.later n.narrow n.first).document

def direct : Document := (run n.graph n.narrow d).document

section Loses

variable (arena : d.Arena)
include arena

theorem toFirst : d.Loses n.first fun id => d.isElement id = true := runLoses arena n.built n.wide

theorem fromFirst : n.first.Loses n.second fun id => d.isElement id = true :=
  (runLoses ((n.toFirst arena).arena arena) n.builtLater n.narrow).weaken fun _ element =>
    (n.toFirst arena).isElementSame ▸ element

theorem toSecond : d.Loses n.second fun id => d.isElement id = true :=
  (n.toFirst arena).trans (n.fromFirst arena)

theorem toDirect : d.Loses n.direct fun id => d.isElement id = true :=
  runLoses arena n.built n.narrow

variable (conv : d.Conventional)
include conv

theorem setStays {id : NodeId} (attached : id ∈ d.elements) (own : d.hasKind .entitySet id = true)
    {name : ShortName} (refers : d.reference? id "EntityType" = some name)
    (kept : name ∈ n.wide.entities) : id ∈ n.first.elements := by
  by_contra missing
  have removed := (memRemovedWhole arena conv n.built (by decide) (by decide)).mpr
    ⟨⟨attached, own⟩, missing⟩
  obtain ⟨_, other, same, outside⟩ := memEntitySets.mp (Document.removeAllRemoved removed)
  cases refers.symm.trans same
  exact outside kept

theorem goneSplit {name : ShortName} : name ∈ gone n.graph n.narrow d ↔
    name ∈ gone n.graph n.wide d ∨ name ∈ gone n.later n.narrow n.first := by
  have lose := n.toFirst arena
  have arena' := lose.arena arena
  have conv' := lose.conventional arena conv
  rw [memGoneIff arena conv n.built, memGoneIff arena conv n.built,
    memGoneIff arena' conv' n.builtLater, lose.hasKindSame, Document.referenceSame lose]
  constructor
  · intro given
    obtain ⟨outside, id, attached, own, refers⟩ := given
    by_cases kept : name ∈ n.wide.entities
    · exact .inr ⟨outside, id, n.setStays arena conv attached own refers kept, own, refers⟩
    · exact .inl ⟨kept, id, attached, own, refers⟩
  · intro given
    rcases given with ⟨outside, rest⟩ | ⟨outside, id, there, rest⟩
    · exact ⟨fun kept => outside (n.narrower name kept), rest⟩
    · exact ⟨outside, id, lose.elementBefore arena there, rest⟩

theorem directStays {id : NodeId} (there : id ∈ n.direct.elements) : id ∈ n.second.elements := by
  have part := runPart arena conv n.built n.narrow
  have inFirst {x : NodeId} (inside : x ∈ n.direct.elements) : x ∈ n.first.elements := by
    apply intactPartStays arena conv (.refl d fun _ => True) n.built part _ n.narrower _ inside
    · exact fun y => part.left.elementBefore arena
    · exact fun name lost => (n.goneSplit arena conv).mpr (.inl lost)
  apply intactPartStays arena conv (n.toFirst arena) n.builtLater part _ _ _ there
  · exact fun y => inFirst
  · exact fun _ member => member
  · exact fun name lost => (n.goneSplit arena conv).mpr (.inr lost)

theorem secondPart : d.IntactPart n.second n.narrow.entities (gone n.graph n.narrow d) := by
  have lose := n.toFirst arena
  have arena' := lose.arena arena
  have conv' := lose.conventional arena conv
  have firstIntact := runIntact arena conv n.built n.wide
  have intact : n.second.Intact n.narrow.entities (gone n.later n.narrow n.first) :=
    runIntact arena' conv' n.builtLater n.narrow
  have left : d.Loses n.second fun _ => True := (n.toSecond arena).weaken fun _ _ => trivial
  refine ⟨left, intact.counting ?_ ?_, ?_⟩
  · intro id there own name returns lost
    rcases (n.goneSplit arena conv).mp lost with before | after
    · rw [(n.fromFirst arena).hasKindSame] at own
      rw [(n.fromFirst arena).attributeSame] at returns
      exact firstIntact.functionImports id ((n.fromFirst arena).elementBefore arena' there) own name
        returns before
    · exact intact.functionImports id there own name returns after
  · exact fun name => memGone
  · intro association there own role attached ownRole above
    have thereFirst := (n.fromFirst arena).elementBefore arena' there
    have roleFirst := endWithAssociation arena conv n.built thereFirst own attached ownRole above
    rw [← lose.hasKindSame] at own ownRole
    rw [← lose.ancestorsSame arena (arena'.memElements.mp roleFirst).2] at above
    exact endWithAssociation arena' conv' n.builtLater there own roleFirst ownRole above

theorem secondStays {id : NodeId} (there : id ∈ n.second.elements) : id ∈ n.direct.elements := by
  have part := n.secondPart arena conv
  apply intactPartStays arena conv (.refl d fun _ => True) n.built part _ _ _ there
  · exact fun y => part.left.elementBefore arena
  · exact fun _ member => member
  · exact fun _ member => member

theorem sameElements (id : NodeId) : id ∈ n.second.elements ↔ id ∈ n.direct.elements :=
  ⟨n.secondStays arena conv, n.directStays arena conv⟩

theorem sameAttached (apart : d.BlanksApart) (id : NodeId) :
    n.second.Attached id ↔ n.direct.Attached id := by
  have whole : d.Loses d fun _ => True := .refl d _
  have follow := Document.blanksFollowRefl arena
  have direct : d.BlanksFollow n.direct := follow.run arena apart whole n.built n.narrow
  have first : d.BlanksFollow n.first := follow.run arena apart whole n.built n.wide
  have second : d.BlanksFollow n.second := first.run arena apart
    ((n.toFirst arena).weaken fun _ _ => trivial) n.builtLater n.narrow
  constructor
  · exact Document.attachedFollows arena apart (n.toSecond arena) (n.toDirect arena) second direct
      (fun _ element => element) (n.sameElements arena conv)
  · exact Document.attachedFollows arena apart (n.toDirect arena) (n.toSecond arena) direct second
      (fun _ element => element) fun x => (n.sameElements arena conv x).symm

theorem removedSplit {kind : ElementKind} (listed : kind ∈ ElementKind.removable)
    (other : kind ≠ .navigationProperty) : (removedBy n.graph n.narrow d kind).length =
      (removedBy n.graph n.wide d kind).length + (removedBy n.later n.narrow n.first kind).length := by
  have lose := n.toFirst arena
  have arena' := lose.arena arena
  have conv' := lose.conventional arena conv
  have apart : (removedBy n.graph n.wide d kind ++ removedBy n.later n.narrow n.first kind).Nodup := by
    refine List.nodup_append.mpr ⟨removedByNodup arena kind, removedByNodup arena' kind, ?_⟩
    intro x before y after same
    subst same
    have missing := ((memRemovedWhole arena conv n.built listed other).mp before).2
    exact missing ((memRemovedWhole arena' conv' n.builtLater listed other).mp after).1.1
  rw [← List.length_append]
  refine ((List.perm_ext_iff_of_nodup (removedByNodup arena kind) apart).mpr fun id => ?_).length_eq
  rw [List.mem_append, memRemovedWhole arena conv n.built listed other,
    memRemovedWhole arena conv n.built listed other,
    memRemovedWhole arena' conv' n.builtLater listed other, lose.hasKindSame]
  have same : id ∉ n.second.elements ↔ id ∉ n.direct.elements :=
    not_congr (n.sameElements arena conv id)
  constructor
  · intro given
    obtain ⟨⟨attached, own⟩, missing⟩ := given
    by_cases there : id ∈ n.first.elements
    · exact .inr ⟨⟨there, own⟩, same.mpr missing⟩
    · exact .inl ⟨⟨attached, own⟩, there⟩
  · intro given
    rcases given with ⟨present, missing⟩ | ⟨⟨there, own⟩, missing⟩
    · refine ⟨present, fun left => missing ?_⟩
      exact (n.fromFirst arena).elementBefore arena' (n.directStays arena conv left)
    · exact ⟨⟨lose.elementBefore arena there, own⟩, same.mp missing⟩

/- A property that dangles at once dangles in one of the steps. The steps may remove more of them, from
types that only the first step keeps. -/
theorem propertiesBounded : (removedBy n.graph n.narrow d .navigationProperty).length ≤
    (removedBy n.graph n.wide d .navigationProperty).length +
      (removedBy n.later n.narrow n.first .navigationProperty).length := by
  have lose := n.toFirst arena
  have arena' := lose.arena arena
  have conv' := lose.conventional arena conv
  rw [← List.length_append]
  refine ((removedByNodup arena .navigationProperty).subperm fun id removed => ?_).length_le
  obtain ⟨chosen, own⟩ := (memRemovedChosen arena conv n.built (by decide)).mp removed
  obtain ⟨attached, entityType, parent, typeLast⟩ := removedFromType arena conv n.built removed
  rw [List.mem_append]
  by_contra untouched
  obtain ⟨sparedFirst, sparedSecond⟩ := not_or.mp untouched
  -- The type stays in both steps, and the property stays with it, hence at once.
  have typeSecond := n.directStays arena conv typeLast
  have typeFirst := (n.fromFirst arena).elementBefore arena' typeSecond
  have there : id ∈ n.first.elements :=
    propertyWithType arena conv n.built attached own parent typeFirst sparedFirst
  have parentThen := lose.parentSame arena (arena'.memElements.mp there).2
  have ownThen : n.first.hasKind .navigationProperty id = true := by
    rw [lose.hasKindSame]
    exact own
  have thereSecond : id ∈ n.second.elements := propertyWithType arena' conv' n.builtLater there ownThen
    (parentThen.trans parent) typeSecond sparedSecond
  exact unchosen arena conv (n.secondStays arena conv thereSecond) own rfl chosen

end Loses

end Narrowing

/- What the second of two steps has in common with one step, and what the two count together. -/
structure Pruned.Narrowed (first second once : Pruned) : Prop where
  closure : second.closure = once.closure
  attached : ∀ id, second.document.Attached id ↔ once.document.Attached id
  text : second.document.toXml = once.document.toXml
  entitySets : once.report.entitySets = first.report.entitySets + second.report.entitySets
  entityTypes : once.report.entityTypes = first.report.entityTypes + second.report.entityTypes
  associations : once.report.associations = first.report.associations + second.report.associations
  functionImports : once.report.functionImports =
    first.report.functionImports + second.report.functionImports
  navigationProperties : once.report.navigationProperties ≤
    first.report.navigationProperties + second.report.navigationProperties
  removedEntities : ∀ name, name ∈ once.report.removedEntities ↔
    name ∈ first.report.removedEntities ∨ name ∈ second.report.removedEntities

open Pruning in
theorem Narrowing.narrowed {d : Document} (n : Narrowing d) (arena : d.Arena) (conv : d.Conventional)
    (apart : d.BlanksApart) :
    Pruned.Narrowed ⟨n.first, n.wide, (run n.graph n.wide d).report⟩
      ⟨n.second, n.narrow, (run n.later n.narrow n.first).report⟩
      ⟨n.direct, n.narrow, (run n.graph n.narrow d).report⟩ := by
  have same := n.sameAttached arena conv apart
  have toSecond := n.toSecond arena
  have toDirect := n.toDirect arena
  have nodes : n.second.nodes = n.direct.nodes := toSecond.nodes.trans toDirect.nodes.symm
  have topLevel : n.second.topLevel = n.direct.topLevel :=
    toSecond.topLevel.trans toDirect.topLevel.symm
  simp only [runReport]
  exact {
    closure := rfl
    attached := same
    text := Document.textTogether nodes (toSecond.arena arena) (toDirect.arena arena) same topLevel
    entitySets := n.removedSplit arena conv (by decide) (by decide)
    entityTypes := n.removedSplit arena conv (by decide) (by decide)
    associations := n.removedSplit arena conv (by decide) (by decide)
    functionImports := n.removedSplit arena conv (by decide) (by decide)
    navigationProperties := n.propertiesBounded arena conv
    removedEntities := fun _ => n.goneSplit arena conv }

theorem prunedIs {p : Pruned} {document : Document} {closure : Closure} {report : Report}
    (left : p.document = document) (kept : p.closure = closure) (counted : p.report = report) :
    p = ⟨document, closure, report⟩ := by
  subst left kept counted
  rfl

theorem narrowingInTwoSteps {d : Document} (reached : d.Reached) (conv : d.Conventional)
    (apart : d.BlanksApart) {wide narrow : List ShortName}
    (inside : ∀ first, d.prune wide = .ok first →
      ∀ name ∈ narrow, name ∈ first.value.closure.entities) :
    ((∃ first second, d.prune wide = .ok first ∧ first.value.document.prune narrow = .ok second) ↔
      ∃ once, d.prune narrow = .ok once) ∧
    ∀ first second once, d.prune wide = .ok first → first.value.document.prune narrow = .ok second →
      d.prune narrow = .ok once → first.value.Narrowed second.value once.value := by
  have arena := reached.arena
  refine ⟨⟨fun given => ?_, fun given => ?_⟩, fun first second once ok okLater okOnce => ?_⟩
  · obtain ⟨first, _, ok, _⟩ := given
    obtain ⟨g, built, _⟩ := Document.pruneParts ok
    exact Document.pruneOf built narrow
  · obtain ⟨once, okOnce⟩ := given
    obtain ⟨g, built, _⟩ := Document.pruneParts okOnce
    obtain ⟨first, ok⟩ := Document.pruneOf built wide
    obtain ⟨second, okLater⟩ := (conv.tidy arena).pruneAgain arena ok narrow
    exact ⟨first, second, ok, okLater⟩
  · obtain ⟨g, built, closed, left, report⟩ := Document.pruneParts ok
    obtain ⟨later, builtLater, closedLater, leftLater, reportLater⟩ := Document.pruneParts okLater
    obtain ⟨g', built', closedOnce, leftOnce, reportOnce⟩ := Document.pruneParts okOnce
    cases built.symm.trans built'
    have asked := inside first ok
    have builtLeft := builtLater
    rw [left] at builtLeft
    have narrower : ∀ name ∈ once.value.closure.entities, name ∈ first.value.closure.entities := by
      intro name kept
      rw [closedOnce] at kept
      rw [closed] at asked ⊢
      exact NavigationGraph.closureLeast asked (fun n known m => NavigationGraph.closureClosed known)
        kept
    have same : second.value.closure = once.value.closure := by
      rw [closedLater, closedOnce]
      rw [closed] at asked builtLeft
      exact Pruning.closureLeft arena (conv.tidy arena) built builtLeft asked
    let n : Narrowing d :=
      ⟨g, first.value.closure, later, once.value.closure, built, builtLeft, narrower⟩
    rw [same, left] at leftLater reportLater
    have firstIs : first.value = ⟨n.first, n.wide, (Pruning.run n.graph n.wide d).report⟩ :=
      prunedIs left rfl report
    have secondIs : second.value =
        ⟨n.second, n.narrow, (Pruning.run n.later n.narrow n.first).report⟩ :=
      prunedIs leftLater same reportLater
    have onceIs : once.value = ⟨n.direct, n.narrow, (Pruning.run n.graph n.narrow d).report⟩ :=
      prunedIs leftOnce rfl reportOnce
    rw [firstIs, secondIs, onceIs]
    exact n.narrowed arena conv apart

def narrowedText : String :=
  "<Schema><EntityContainer> <EntitySet EntityType=\"C\"/></EntityContainer>" ++
  "<EntityType Name=\"A\"><NavigationProperty Relationship=\"R\"/></EntityType>" ++
  "<Association Name=\"R\"><End Type=\"B\"/></Association></Schema>"

theorem narrowedAlike : ∃ d first second once, Document.parse narrowedText = .ok d ∧
    d.prune [⟨"A"⟩] = .ok first ∧ first.value.report.entitySets = 1 ∧
    first.value.document.prune [⟨"B"⟩] = .ok second ∧ second.value.report.entityTypes = 1 ∧
    d.prune [⟨"B"⟩] = .ok once ∧ first.value.Narrowed second.value once.value := by
  have chars : narrowedText.toList = _ := Document.charsAppend
    (Document.charsAppend (Document.charsOf rfl) (Document.charsOf rfl)) (Document.charsOf rfl)
  obtain ⟨d, read, facts⟩ := Document.okWith (x := Document.parse narrowedText)
    (p := fun d => decide (d.Conventional ∧ d.BlanksApart) &&
      (d.prune [⟨"A"⟩]).toOption.any fun first : Logged Pruned =>
        decide (first.value.report.entitySets = 1 ∧ ⟨"B"⟩ ∈ first.value.closure.entities) &&
        (first.value.document.prune [⟨"B"⟩]).toOption.any fun second : Logged Pruned =>
          decide (second.value.report.entityTypes = 1))
    (by rw [Document.parseChars chars]; decide +kernel)
  obtain ⟨shape, runs⟩ := Bool.and_eq_true_iff.mp facts
  obtain ⟨conv, apart⟩ := of_decide_eq_true shape
  obtain ⟨first, ok, rest⟩ := Document.okWith runs
  obtain ⟨one, later⟩ := Bool.and_eq_true_iff.mp rest
  obtain ⟨sets, reached⟩ := of_decide_eq_true one
  obtain ⟨second, okLater, types⟩ := Document.okWith later
  have inside : ∀ step, d.prune [⟨"A"⟩] = .ok step →
      ∀ name ∈ [⟨"B"⟩], name ∈ step.value.closure.entities := by
    intro step okStep name listed
    cases ok.symm.trans okStep
    cases List.mem_singleton.mp listed
    exact reached
  obtain ⟨succeeds, alike⟩ := narrowingInTwoSteps (.parsed read) conv apart inside
  obtain ⟨once, okOnce⟩ := succeeds.mp ⟨first, second, ok, okLater⟩
  exact ⟨d, first, second, once, read, ok, sets, okLater, of_decide_eq_true types, okOnce,
    alike first second once ok okLater okOnce⟩

end EdmxPruning
