import Mathlib.Data.List.Perm.Basic
import EdmxPruning.Proofs.Pruning.Reasons
import EdmxPruning.Proofs.Pruning.Tally

/-! The account of a run. Whatever document it is applied to, and however long ago the graph was built,
a pass detaches elements of its own kind only and counts each of them once, so the report is the list
of the elements that lost their parent, sorted by kind. -/
namespace EdmxPruning

namespace Document

def detached (d left : Document) (among : NodeId → Bool) : List NodeId :=
  (List.range d.nodes.size).filter fun id =>
    among id && (d.parent? id).isSome && (left.parent? id).isNone

theorem memDetached {d left : Document} {among : NodeId → Bool} {id : NodeId} :
    id ∈ d.detached left among ↔
      among id = true ∧ (d.parent? id).isSome = true ∧ left.parent? id = none := by
  unfold detached
  simp only [List.mem_filter, List.mem_range, Bool.and_eq_true, Option.isNone_iff_eq_none]
  constructor
  · intro given
    obtain ⟨_, ⟨member, before⟩, after⟩ := given
    exact ⟨member, before, after⟩
  · intro given
    obtain ⟨member, before, after⟩ := given
    obtain ⟨parent, above⟩ := Option.isSome_iff_exists.mp before
    exact ⟨originalParentBelow (parentParts.mp above).2, ⟨member, before⟩, after⟩

theorem detachedNodup (d left : Document) (among : NodeId → Bool) : (d.detached left among).Nodup :=
  List.nodup_range.filter _

theorem detachedBounded (d left : Document) (among : NodeId → Bool) :
    (d.detached left among).length ≤ d.nodes.size := by
  have bounded := List.length_filter_le (fun id =>
    among id && (d.parent? id).isSome && (left.parent? id).isNone) (List.range d.nodes.size)
  rwa [List.length_range] at bounded

theorem hasKindOther {d : Document} {kind other : ElementKind} {id : NodeId}
    (own : d.hasKind kind id = true) (different : kind ≠ other) : d.hasKind other id = false :=
  Bool.eq_false_iff.mpr fun both => different (hasKindUnique own both)

theorem foundHeld {d : Document} (arena : d.Arena) {kind : ElementKind} {scope id : NodeId}
    (found : id ∈ d.find kind (some scope)) : (d.parent? id).isSome = true := by
  have above := (arena.memDescendants.mp (memFind found).1).2
  cases parent : d.parent? id with
  | none => rw [Arena.ancestorsTop parent] at above; cases above
  | some _ => rfl

end Document

def Report.countOf (r : Report) : ElementKind → Nat
  | .entitySet => r.entitySets
  | .entityType => r.entityTypes
  | .association => r.associations
  | .functionImport => r.functionImports
  | .navigationProperty => r.navigationProperties
  | .dataServices | .schema | .entityContainer | .associationEnd => 0

namespace Pruning

theorem countOfRun {g : NavigationGraph} {closure : Closure} {d : Document} {kind : ElementKind}
    (listed : kind ∈ ElementKind.removable) :
    (run g closure d).report.countOf kind = (removedBy g closure d kind).length := by
  rw [runReport]
  cases kind with
  | entitySet | entityType | association | functionImport | navigationProperty => rfl
  | dataServices | schema | entityContainer | associationEnd => exact absurd listed (by decide)

theorem totalRemoved (g : NavigationGraph) (closure : Closure) (d : Document) :
    (run g closure d).report.total =
      (ElementKind.removable.flatMap (removedBy g closure d)).length := by
  rw [runReport]
  simp only [Report.total, ElementKind.removable, List.flatMap_cons, List.flatMap_nil,
    List.length_append, List.length_nil]
  omega

/- The graph may have been built from a document that has lost nodes since. -/
section Stale

variable {origin d : Document} {lost : NodeId → Prop} {g : NavigationGraph} {closure : Closure}
  {kind : ElementKind} {id : NodeId} (arena : d.Arena) (built : origin.navigation = .ok g)
  (loses : origin.Loses d lost)
include arena built loses

theorem choiceKind (h : id ∈ choice g closure d kind) : d.hasKind kind id = true := by
  have lose := stagesLose arena g closure
  cases kind with
  | entitySet => exact hasKindScoped (memEntitySets.mp h).1
  | entityType =>
    have own := (Document.memFind ((memEntityTypes built).mp h).1).2
    rwa [loses.hasKindSame]
  | association =>
    have own := hasKindScoped (memAssociations.mp h).1
    rwa [lose.toTypes.hasKindSame] at own
  | functionImport =>
    have own := hasKindScoped (memFunctionImports.mp h).1
    rwa [lose.toAssociations.hasKindSame] at own
  | navigationProperty =>
    obtain ⟨⟨_, _, _, found⟩, _⟩ := (memNavigationProperties built).mp h
    have own := (Document.memFind found).2
    rwa [lose.toImports.hasKindSame] at own
  | dataServices | schema | entityContainer | associationEnd => cases h

theorem passLoses (kind : ElementKind) : (stage g closure d kind).Loses
    ((stage g closure d kind).removeAll (choice g closure d kind)).document
    fun id => d.hasKind kind id = true :=
  (Document.removeAllLoses ((toStage arena kind).arena arena) _).weaken
    fun _ chosen => choiceKind arena built loses chosen

theorem passSpares (other : ElementKind) (different : other ≠ kind) :
    (stage g closure d other).Loses
      ((stage g closure d other).removeAll (choice g closure d other)).document
      fun id => d.hasKind kind id = false :=
  (passLoses arena built loses other).weaken fun _ own => Document.hasKindOther own different

theorem stageSpares (listed : kind ∈ ElementKind.removable) :
    d.Loses (stage g closure d kind) fun id => d.hasKind kind id = false := by
  have spares (other : ElementKind) (different : other ≠ kind) :
      (stage g closure d other).Loses
        ((stage g closure d other).removeAll (choice g closure d other)).document
        fun id => d.hasKind kind id = false := passSpares arena built loses other different
  cases kind with
  | entitySet => exact .refl d _
  | entityType => exact spares .entitySet (by decide)
  | association =>
    exact (spares .entitySet (by decide)).trans (spares .entityType (by decide))
  | functionImport =>
    exact ((spares .entitySet (by decide)).trans (spares .entityType (by decide))).trans
      (spares .association (by decide))
  | navigationProperty =>
    exact (((spares .entitySet (by decide)).trans (spares .entityType (by decide))).trans
      (spares .association (by decide))).trans (spares .functionImport (by decide))
  | dataServices | schema | entityContainer | associationEnd => exact absurd listed (by decide)

theorem memRemovedDetached (listed : kind ∈ ElementKind.removable) :
    id ∈ removedBy g closure d kind ↔
      id ∈ d.detached (run g closure d).document (d.hasKind kind) := by
  have lose := stagesLose arena g closure
  have reaches : d.Loses (stage g closure d kind) (Chosen g closure d) := toStage arena kind
  have arenaThen := reaches.arena arena
  rw [Document.memDetached]
  constructor
  · intro removed
    have chosen := Document.removeAllRemoved removed
    obtain ⟨parent, above⟩ := Option.isSome_iff_exists.mp (Document.removedHadParent removed arenaThen)
    have aboveBefore := reaches.parentBefore above
    exact ⟨choiceKind arena built loses chosen, by rw [aboveBefore]; rfl,
      lose.chosenDetached arena (chosenIff.mpr ⟨kind, listed, chosen⟩)⟩
  · intro given
    obtain ⟨own, before, after⟩ := given
    have element := Document.hasKindElement own
    obtain ⟨other, _, chosen⟩ := chosenIff.mp (detachedChosen lose element before after)
    cases Document.hasKindUnique own (choiceKind arena built loses chosen)
    have spares : d.Loses (stage g closure d kind) fun x => d.hasKind kind x = false :=
      stageSpares arena built loses listed
    have kept := spares.parentKept element (by rw [own]; exact Bool.noConfusion)
    have elements : ∀ x ∈ choice g closure d kind, (stage g closure d kind).isElement x = true := by
      intro x member
      rw [spares.isElementSame]
      exact Document.hasKindElement (choiceKind arena built loses member)
    exact (Document.memRemoved arenaThen elements).mpr ⟨chosen, by rw [kept]; exact before⟩

theorem removedPermDetached (listed : kind ∈ ElementKind.removable) :
    (removedBy g closure d kind).Perm (d.detached (run g closure d).document (d.hasKind kind)) :=
  (List.perm_ext_iff_of_nodup (removedByNodup arena kind) (Document.detachedNodup _ _ _)).mpr
    fun _ => memRemovedDetached arena built loses listed

theorem detachedRemovable (gone : id ∈ d.detached (run g closure d).document d.isElement) :
    d.Removable id := by
  obtain ⟨element, before, after⟩ := Document.memDetached.mp gone
  obtain ⟨kind, listed, chosen⟩ :=
    chosenIff.mp (detachedChosen (stagesLose arena g closure) element before after)
  exact ⟨kind, listed, choiceKind arena built loses chosen⟩

theorem allRemovedPerm : (ElementKind.removable.flatMap (removedBy g closure d)).Perm
    (d.detached (run g closure d).document d.isElement) := by
  have apart : ElementKind.removable.Pairwise fun a b =>
      List.Disjoint (removedBy g closure d a) (removedBy g closure d b) := by
    refine List.Pairwise.imp_of_mem (R := (· ≠ ·)) ?_ (by decide)
    intro a b listedA listedB different id inA inB
    have goneA := (memRemovedDetached arena built loses listedA).mp inA
    have goneB := (memRemovedDetached arena built loses listedB).mp inB
    exact different (Document.hasKindUnique (Document.memDetached.mp goneA).1
      (Document.memDetached.mp goneB).1)
  refine (List.perm_ext_iff_of_nodup (List.nodup_flatMap.mpr
    ⟨fun kind _ => removedByNodup arena kind, apart⟩) (Document.detachedNodup _ _ _)).mpr fun id => ?_
  rw [List.mem_flatMap]
  constructor
  · intro given
    obtain ⟨kind, listed, removed⟩ := given
    have gone := (memRemovedDetached arena built loses listed).mp removed
    obtain ⟨own, links⟩ := Document.memDetached.mp gone
    exact Document.memDetached.mpr ⟨Document.hasKindElement own, links⟩
  · intro gone
    obtain ⟨kind, listed, own⟩ := detachedRemovable arena built loses gone
    have links := (Document.memDetached.mp gone).2
    exact ⟨kind, listed,
      (memRemovedDetached arena built loses listed).mpr (Document.memDetached.mpr ⟨own, links⟩)⟩

theorem totalDetached :
    (run g closure d).report.total = (d.detached (run g closure d).document d.isElement).length := by
  have perm : (ElementKind.removable.flatMap (removedBy g closure d)).Perm
      (d.detached (run g closure d).document d.isElement) := allRemovedPerm arena built loses
  rw [totalRemoved, perm.length_eq]

end Stale

/- Every chosen set goes, so it is the same whether its type is recorded when the set is chosen or when
it is removed. -/
theorem goneOfChosen {g : NavigationGraph} {closure : Closure} {d : Document} (arena : d.Arena) :
    gone g closure d = .ofList ((entitySets g closure d).filterMap (d.reference? · "EntityType")) := by
  refine NameSet.memExt fun name => ?_
  rw [NameSet.memOfList, List.mem_filterMap]
  constructor
  · intro counted
    obtain ⟨set, removed, refers⟩ := memGoneRemoved.mp counted
    exact ⟨set, Document.removeAllRemoved removed, refers⟩
  · intro given
    obtain ⟨set, chosen, refers⟩ := given
    obtain ⟨container, _, found⟩ := List.mem_flatMap.mp (memEntitySets.mp chosen).1
    exact chosenSetCounted arena chosen (Document.foundHeld arena found) refers

end Pruning

/- The graph was built before the calls, so it may name nodes that are gone and miss what they hid. -/
theorem reportCountsDetached {d : Document} (reached : d.Reached) {g : NavigationGraph}
    (built : d.navigation = .ok g) (calls : List NodeId) (closure : Closure) :
    let before := (d.removeAll calls).document
    let pruned := (before.narrow g closure).value
    let lost := before.detached pruned.document before.isElement
    (∀ kind ∈ ElementKind.removable, pruned.report.countOf kind =
      (before.detached pruned.document (before.hasKind kind)).length) ∧
    (∀ id ∈ lost, before.Removable id) ∧
    pruned.report.total = lost.length ∧ lost.length ≤ before.nodes.size ∧
    (∀ name, name ∈ pruned.report.removedEntities ↔
      ∃ set ∈ before.detached pruned.document (before.hasKind .entitySet),
        before.reference? set "EntityType" = some name) ∧
    pruned.report.removedEntities = .ofList
      ((Pruning.entitySets g closure before).filterMap (before.reference? · "EntityType")) := by
  intro before pruned lost
  have loses := Document.removeAllLoses reached.arena calls
  have arena := loses.arena reached.arena
  have recorded : pruned.report.removedEntities = Pruning.gone g closure before :=
    Pruning.reportGone _
  refine ⟨fun kind listed => ?_, fun id gone => Pruning.detachedRemovable arena built loses gone,
    Pruning.totalDetached arena built loses, Document.detachedBounded _ _ _, fun name => ?_,
    recorded.trans (Pruning.goneOfChosen arena)⟩
  · exact (Pruning.countOfRun listed).trans
      (Pruning.removedPermDetached arena built loses listed).length_eq
  · rw [recorded, Pruning.memGoneRemoved]
    refine exists_congr fun id => and_congr_left fun _ => ?_
    exact Pruning.memRemovedDetached arena built loses (by decide)

def nestedContainers : String :=
  "<Schema><EntityContainer><EntityContainer><EntitySet EntityType=\"N.B\">" ++
  "<EntitySet EntityType=\"B\"/></EntitySet></EntityContainer></EntityContainer>" ++
  "<EntityType Name=\"A\"/><EntityType Name=\"B\"/>" ++
  "<Association Name=\"R\"><End Type=\"B\"/></Association></Schema>"

theorem staleGraphCounted : ∃ d g, Document.parse nestedContainers = .ok d ∧ d.navigation = .ok g ∧
    let before := (d.removeAll [6, 1]).document
    let pruned := (before.narrow g ⟨.ofList [⟨"A"⟩], .ofList [⟨"A"⟩]⟩).value
    before.detached pruned.document before.isElement = [3, 4, 7] ∧
      pruned.report.countOf .entitySet = 2 ∧ pruned.report.total = 3 := by
  have chars : nestedContainers.toList = _ := Document.charsAppend (Document.charsAppend
    (Document.charsAppend (Document.charsOf rfl) (Document.charsOf rfl)) (Document.charsOf rfl))
    (Document.charsOf rfl)
  obtain ⟨d, read, facts⟩ := Document.okWith (x := Document.parse nestedContainers)
    (p := fun d => d.navigation.toOption.any fun g =>
      let before := (d.removeAll [6, 1]).document
      let pruned := (before.narrow g ⟨.ofList [⟨"A"⟩], .ofList [⟨"A"⟩]⟩).value
      decide (before.detached pruned.document before.isElement = [3, 4, 7] ∧
        before.detached pruned.document (before.hasKind .entitySet) = [3, 4]))
    (by rw [Document.parseChars chars]; decide +kernel)
  obtain ⟨g, built, found⟩ := Document.okWith facts
  obtain ⟨lost, sets⟩ := of_decide_eq_true found
  obtain ⟨counts, _, total, _⟩ := reportCountsDetached (.parsed read) built [6, 1]
    ⟨.ofList [⟨"A"⟩], .ofList [⟨"A"⟩]⟩
  have counted := counts .entitySet (by decide)
  rw [sets] at counted
  rw [lost] at total
  exact ⟨d, g, read, built, lost, counted, total⟩

end EdmxPruning
