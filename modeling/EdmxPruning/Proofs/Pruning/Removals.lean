import EdmxPruning.Proofs.Pruning.Survival

/-! What a list of removals takes out. Each element of the list that has a parent is taken out once,
whatever else is on the list, and that is all that is reported as removed. -/
namespace EdmxPruning

namespace Document

theorem Loses.parentKept {d d' : Document} {gone : NodeId → Prop} (h : d.Loses d' gone) {id : NodeId}
    (element : d.isElement id = true) (safe : ¬ gone id) : d'.parent? id = d.parent? id := by
  have same : d'.isCut id = d.isCut id := by
    refine Bool.eq_iff_iff.mpr ⟨fun cut => ?_, h.kept id⟩
    rcases h.lost id cut with old | now | blank
    · exact old
    · exact absurd now safe
    · rw [elementNotBlank element] at blank
      cases blank
  unfold parent?
  rw [same, h.nodes]

theorem removedHadParent {d : Document} {ids : List NodeId} {id : NodeId}
    (h : id ∈ (d.removeAll ids).removed) (arena : d.Arena) : (d.parent? id).isSome = true := by
  induction ids generalizing d with
  | nil => cases h
  | cons first rest ih =>
    unfold removeAll at h
    cases tried : d.remove? first with
    | none => rw [tried] at h; exact ih h arena
    | some smaller =>
      rw [tried] at h
      obtain ⟨parent, above, _⟩ := removeCases tried
      rcases List.mem_cons.mp h with same | later
      · rw [same, above]
        rfl
      · have lose := removeLoses arena tried
        obtain ⟨p, own⟩ := Option.isSome_iff_exists.mp (ih later (lose.arena arena))
        rw [lose.parentBefore own]
        rfl

theorem removedNodup {d : Document} (arena : d.Arena) (ids : List NodeId) :
    (d.removeAll ids).removed.Nodup := by
  induction ids generalizing d with
  | nil => exact .nil
  | cons first rest ih =>
    unfold removeAll
    cases tried : d.remove? first with
    | none => exact ih arena
    | some smaller =>
      have arena' := (removeLoses arena tried).arena arena
      refine List.nodup_cons.mpr ⟨fun again => ?_, ih arena'⟩
      have parent := removedHadParent again arena'
      rw [removeDetaches arena tried] at parent
      cases parent

theorem removedOf {d : Document} (arena : d.Arena) {ids : List NodeId}
    (elements : ∀ id ∈ ids, d.isElement id = true) {id : NodeId} (listed : id ∈ ids)
    (parent : (d.parent? id).isSome = true) : id ∈ (d.removeAll ids).removed := by
  induction ids generalizing d with
  | nil => cases listed
  | cons first rest ih =>
    have restElements : ∀ x ∈ rest, d.isElement x = true :=
      fun x member => elements x (List.mem_cons_of_mem _ member)
    unfold removeAll
    cases tried : d.remove? first with
    | none =>
      rcases List.mem_cons.mp listed with same | later
      · rw [same, removeNone tried] at parent
        cases parent
      · exact ih arena restElements later parent
    | some smaller =>
      by_cases same : id = first
      · exact same ▸ List.mem_cons_self
      · have lose := removeLoses arena tried
        have later := (List.mem_cons.mp listed).resolve_left same
        have kept := lose.parentKept (restElements id later) same
        apply List.mem_cons_of_mem
        apply ih (lose.arena arena) _ later
        · rw [kept]
          exact parent
        · exact fun x member => lose.isElementSame ▸ restElements x member

theorem memRemoved {d : Document} (arena : d.Arena) {ids : List NodeId}
    (elements : ∀ id ∈ ids, d.isElement id = true) {id : NodeId} :
    id ∈ (d.removeAll ids).removed ↔ id ∈ ids ∧ (d.parent? id).isSome = true :=
  ⟨fun h => ⟨removeAllRemoved h, removedHadParent h arena⟩,
    fun ⟨listed, parent⟩ => removedOf arena elements listed parent⟩

theorem removeAllDetached {d : Document} {ids : List NodeId}
    (detached : ∀ id ∈ ids, d.parent? id = none) : d.removeAll ids = ⟨d, []⟩ := by
  induction ids with
  | nil => rfl
  | cons first rest ih =>
    unfold removeAll
    rw [removeDetached (detached first List.mem_cons_self)]
    exact ih fun id member => detached id (List.mem_cons_of_mem _ member)

end Document

namespace Pruning

variable {d : Document} {g : NavigationGraph} {closure : Closure} {id : NodeId}

/- A chosen entity set that had a parent is removed by the first pass, so its type is recorded. -/
theorem chosenSetCounted (arena : d.Arena) (chosen : id ∈ entitySets g closure d)
    (before : (d.parent? id).isSome = true) {name : ShortName}
    (refers : d.reference? id "EntityType" = some name) : name ∈ gone g closure d := by
  have elements : ∀ x ∈ entitySets g closure d, d.isElement x = true :=
    fun x member => Document.hasKindElement (hasKindScoped (memEntitySets.mp member).1)
  have removed := (Document.memRemoved arena elements).mpr ⟨chosen, before⟩
  exact NameSet.memOfList.mpr (List.mem_filterMap.mpr ⟨id, removed, refers⟩)

end Pruning

end EdmxPruning
