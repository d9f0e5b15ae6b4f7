import EdmxPruning.Proofs.Document.Ancestry

/-! What is left of a document stands in the order it had. So the first of the elements that are left
is found where it was found before, if it is among them. -/
namespace EdmxPruning

theorem flatMapLeft {α β : Type} {ids : List α} {keep : α → Bool} {shorter whole : α → List β}
    {stays : β → Bool} (dropped : ∀ c ∈ ids, keep c = false → (whole c).filter stays = [])
    (kept : ∀ c ∈ ids, keep c = true → shorter c = (whole c).filter stays) :
    (ids.filter keep).flatMap shorter = (ids.flatMap whole).filter stays := by
  induction ids with
  | nil => rfl
  | cons c rest ih =>
    have later := ih (fun x member => dropped x (List.mem_cons_of_mem _ member))
      (fun x member => kept x (List.mem_cons_of_mem _ member))
    rw [List.flatMap_cons, List.filter_append, ← later]
    cases chosen : keep c with
    | true =>
      rw [List.filter_cons_of_pos chosen, List.flatMap_cons, kept c List.mem_cons_self chosen]
    | false =>
      rw [List.filter_cons_of_neg (by simp [chosen]), dropped c List.mem_cons_self chosen,
        List.nil_append]

theorem findLeft {α : Type} {ids : List α} {p keep : α → Bool} {x : α} (first : ids.find? p = some x)
    (kept : keep x = true) : (ids.filter keep).find? p = some x := by
  rw [List.find?_filter]
  obtain ⟨own, earlier, later, shape, none⟩ := List.find?_eq_some_iff_append.mp first
  refine List.find?_eq_some_iff_append.mpr ⟨by simp [own, kept], earlier, later, shape, ?_⟩
  intro y member
  have := none y member
  simp only [Bool.not_eq_true'] at this
  simp [this]

namespace Document.Loses

variable {d d' : Document} {gone : NodeId → Prop} (h : d.Loses d' gone)
include h

theorem childrenLeft (id : NodeId) : d'.children id = (d.children id).filter (!d'.isCut ·) := by
  unfold children
  rw [h.nodes, List.filter_filter]
  refine List.filter_congr fun x _ => ?_
  cases cut : d'.isCut x with
  | true => rfl
  | false =>
    have uncut : d.isCut x = false :=
      Bool.eq_false_iff.mpr fun old => by rw [h.kept x old] at cut; cases cut
    rw [uncut]
    rfl

theorem childLeft {parent child : NodeId} (above : d.parent? child = some parent)
    (uncut : d'.isCut child = false) : d'.parent? child = some parent :=
  parentParts.mpr ⟨uncut, h.originalParentSame ▸ (parentParts.mp above).2⟩

variable (arena : d.Arena)
include arena

theorem noneBelowCut {c x : NodeId} (cut : d'.isCut c = true) (below : x = c ∨ c ∈ d.ancestors x) :
    x ∉ d'.elements := by
  intro there
  have arena' := h.arena arena
  have attached := (arena'.memElements.mp there).2
  have attachedC : d'.Attached c := by
    rcases below with same | above
    · exact same ▸ attached
    · exact arena'.attachedAbove attached (h.ancestorsSame arena attached ▸ above)
  rw [attachedUncut arena' attachedC] at cut
  cases cut

/- Level by level: a child that is cut takes all below it along, the others are treated alike. -/
theorem descendantsLeft {depth : Nat} {id : Nat} (there : d'.Attached id)
    (enough : d.nodes.size ≤ id + depth) : d'.descendantsWithin depth id =
      (d.descendantsWithin depth id).filter (fun x => decide (x ∈ d'.elements)) := by
  induction depth generalizing id with
  | zero => rfl
  | succ depth ih =>
    have enoughFor {c : Nat} (member : c ∈ d.children id) : d.nodes.size ≤ c + depth := by
      have before : id < c := arena.parentBefore (arena.memChildren.mp member)
      omega
    rw [descendantsWithin, descendantsWithin, h.childrenLeft, h.isElementSame]
    apply flatMapLeft
    · intro c member cut
      have cut : d'.isCut c = true := by simpa using cut
      refine List.filter_eq_nil_iff.mpr fun x listed => ?_
      rw [decide_eq_true_eq]
      apply h.noneBelowCut arena cut
      split at listed
      · refine (List.mem_cons.mp listed).imp_right fun lower => ?_
        exact ((arena.memDescendantsWithin (enoughFor member)).mp lower).2
      · cases listed
    · intro c member uncut
      have uncut : d'.isCut c = false := by simpa using uncut
      have attached : d'.Attached c := .child there (h.childLeft (arena.memChildren.mp member) uncut)
      cases element : d.isElement c with
      | false => rfl
      | true =>
        have inside : c ∈ d'.elements :=
          (h.arena arena).memElements.mpr ⟨h.isElementSame ▸ element, attached⟩
        rw [if_pos rfl, if_pos rfl, List.filter_cons_of_pos (by simpa using inside),
          ih attached (enoughFor member)]

theorem elementsLeft : d'.elements = d.elements.filter (fun x => decide (x ∈ d'.elements)) := by
  have rootInside : d.root ∈ d'.elements := h.root ▸ List.mem_cons_self
  have there : d'.Attached d.root := h.root ▸ .root
  have left := h.descendantsLeft arena there (Nat.le_add_left d.nodes.size d.root)
  show d'.root :: d'.descendants d'.root = (d.root :: d.descendants d.root).filter _
  rw [List.filter_cons_of_pos (by simpa using rootInside), h.root]
  unfold descendants
  rw [← left, h.nodes]

theorem childStays {parent id : NodeId} (there : parent ∈ d'.elements)
    (above : d.parent? id = some parent) (element : d.isElement id = true)
    (uncut : d'.isCut id = false) : id ∈ d'.elements := by
  have arena' := h.arena arena
  exact arena'.memElements.mpr ⟨h.isElementSame ▸ element,
    .child (arena'.memElements.mp there).2 (h.childLeft above uncut)⟩

theorem lowerStays {a x : NodeId} (there : a ∈ d'.elements) (below : a ∈ d.ancestors x)
    (element : d.isElement x = true) (uncut : d'.isCut x = false)
    (way : ∀ y ∈ d.ancestors x, a ∈ d.ancestors y → d'.isCut y = false) : x ∈ d'.elements := by
  induction x using arena.ancestorsInduction with
  | top x top => rw [Arena.ancestorsTop top] at below; cases below
  | child x parent own ih =>
    have onWay : parent ∈ d.ancestors x := (arena.memAncestorsChild own).mpr (.inl rfl)
    rcases (arena.memAncestorsChild own).mp below with same | higher
    · exact h.childStays arena (same ▸ there) own element uncut
    · refine h.childStays arena ?_ own element uncut
      exact ih higher (arena.parentElement own) (way parent onWay higher)
        fun y above => way y ((arena.memAncestorsChild own).mpr (.inr above))

end Document.Loses
end EdmxPruning
