import EdmxPruning.Metadata.Search
import EdmxPruning.Proofs.Document.Removal

/-! Ancestors, descendants and the attached part of a document. Going up and going down agree, and
what stays attached when a document loses nodes keeps its ancestors. -/
namespace EdmxPruning

namespace Document

def elements (d : Document) : List NodeId := d.candidates none

inductive Attached (d : Document) : NodeId → Prop where
  | root : Attached d d.root
  | child {parent id} (inside : Attached d parent) (above : d.parent? id = some parent) :
      Attached d id

namespace Arena

variable {d : Document}

theorem parentBefore (arena : d.Arena) {id parent : Nat} (above : d.parent? id = some parent) :
    parent < id :=
  arena.later parent id ((arena.linked parent id).mp (parentParts.mp above).2)

theorem parentElement (arena : d.Arena) {id parent : NodeId} (above : d.parent? id = some parent) :
    d.isElement parent = true := by
  have inside := (arena.linked parent id).mp (parentParts.mp above).2
  exact arena.parents parent fun none => by rw [none] at inside; cases inside

theorem parentBelow (arena : d.Arena) {id parent : NodeId} (above : d.parent? id = some parent) :
    parent < d.nodes.size :=
  Nat.lt_trans (arena.parentBefore above) (originalParentBelow (parentParts.mp above).2)

theorem rootOriginal (arena : d.Arena) : d.originalParent? d.root = none :=
  ((arena.topLevel d.root).mp arena.rootOnTop).2

theorem rootParent (arena : d.Arena) : d.parent? d.root = none := by
  cases above : d.parent? d.root with
  | none => rfl
  | some parent =>
    have := (parentParts.mp above).2
    rw [arena.rootOriginal] at this
    cases this

theorem rootUncut (arena : d.Arena) : d.isCut d.root = false := by
  refine Bool.eq_false_iff.mpr fun cut => ?_
  obtain ⟨parent, above⟩ := arena.cutBelow d.root cut
  rw [arena.rootOriginal] at above
  cases above

/- Parents have smaller numbers, so any depth beyond the number of the node is enough. -/
theorem ancestorsWithinEnough (arena : d.Arena) {id : Nat} {depth more : Nat} (enough : id ≤ depth)
    (evenMore : id ≤ more) : d.ancestorsWithin depth id = d.ancestorsWithin more id := by
  induction depth generalizing id more with
  | zero =>
    have above : d.parent? id = none := by
      cases above : d.parent? id with
      | none => rfl
      | some parent => have := arena.parentBefore above; omega
    cases more with
    | zero => rfl
    | succ more => simp only [ancestorsWithin, above]
  | succ depth ih =>
    cases above : d.parent? id with
    | none => cases more <;> simp only [ancestorsWithin, above]
    | some parent =>
      have before := arena.parentBefore above
      cases more with
      | zero => omega
      | succ more =>
        simp only [ancestorsWithin, above]
        rw [ih (Nat.le_of_lt_succ (Nat.lt_of_lt_of_le before enough))
          (Nat.le_of_lt_succ (Nat.lt_of_lt_of_le before evenMore))]

theorem ancestorsChild (arena : d.Arena) {id parent : NodeId} (above : d.parent? id = some parent) :
    d.ancestors id = parent :: d.ancestors parent := by
  have below : id < d.nodes.size := originalParentBelow (parentParts.mp above).2
  have before := arena.parentBefore above
  unfold ancestors
  rw [arena.ancestorsWithinEnough (Nat.le_of_lt below) (Nat.le_succ_of_le (Nat.le_of_lt below))]
  simp only [ancestorsWithin, above]

theorem ancestorsTop {id : NodeId} (top : d.parent? id = none) : d.ancestors id = [] := by
  unfold ancestors
  cases d.nodes.size <;> simp only [ancestorsWithin, top]

theorem ancestorsInduction (arena : d.Arena) {motive : NodeId → Prop}
    (top : ∀ id, d.parent? id = none → motive id)
    (child : ∀ id parent, d.parent? id = some parent → motive parent → motive id) (id : NodeId) :
    motive id := by
  induction id using Nat.strongRecOn with
  | ind id ih =>
    cases above : d.parent? id with
    | none => exact top id above
    | some parent => exact child id parent above (ih parent (arena.parentBefore above))

theorem memAncestorsChild (arena : d.Arena) {a id parent : NodeId}
    (above : d.parent? id = some parent) :
    a ∈ d.ancestors id ↔ a = parent ∨ a ∈ d.ancestors parent := by
  rw [arena.ancestorsChild above, List.mem_cons]

theorem parentOfAncestor (arena : d.Arena) {a b id : NodeId} (h : a ∈ d.ancestors id)
    (above : d.parent? a = some b) : b ∈ d.ancestors id := by
  induction id using arena.ancestorsInduction with
  | top id top => rw [ancestorsTop top] at h; cases h
  | child id parent own ih =>
    refine (arena.memAncestorsChild own).mpr ?_
    rcases (arena.memAncestorsChild own).mp h with same | higher
    · subst same
      exact .inr ((arena.memAncestorsChild above).mpr (.inl rfl))
    · exact .inr (ih higher)

theorem ancestorsTrans (arena : d.Arena) {a b id : NodeId} (lower : b ∈ d.ancestors id)
    (higher : a ∈ d.ancestors b) : a ∈ d.ancestors id := by
  induction b using arena.ancestorsInduction with
  | top b top => rw [ancestorsTop top] at higher; cases higher
  | child b parent own ih =>
    have next := arena.parentOfAncestor lower own
    rcases (arena.memAncestorsChild own).mp higher with same | further
    · exact same ▸ next
    · exact ih next further

theorem ancestorElement (arena : d.Arena) {a id : NodeId} (h : a ∈ d.ancestors id) :
    d.isElement a = true := by
  induction id using arena.ancestorsInduction with
  | top id top => rw [ancestorsTop top] at h; cases h
  | child id parent own ih =>
    rcases (arena.memAncestorsChild own).mp h with same | higher
    · exact same ▸ arena.parentElement own
    · exact ih higher

theorem ancestorBelow (arena : d.Arena) {a id : NodeId} (h : a ∈ d.ancestors id) :
    a < d.nodes.size := by
  induction id using arena.ancestorsInduction with
  | top id top => rw [ancestorsTop top] at h; cases h
  | child id parent own ih =>
    rcases (arena.memAncestorsChild own).mp h with same | higher
    · exact same ▸ arena.parentBelow own
    · exact ih higher

theorem childTowards (arena : d.Arena) {a id : NodeId} (h : a ∈ d.ancestors id) :
    ∃ c, d.parent? c = some a ∧ (c = id ∨ c ∈ d.ancestors id) := by
  induction id using arena.ancestorsInduction with
  | top id top => rw [ancestorsTop top] at h; cases h
  | child id parent own ih =>
    rcases (arena.memAncestorsChild own).mp h with same | higher
    · exact ⟨id, same ▸ own, .inl rfl⟩
    · obtain ⟨c, above, way⟩ := ih higher
      exact ⟨c, above, .inr ((arena.memAncestorsChild own).mpr way)⟩

theorem memDescendantsWithin (arena : d.Arena) {depth a x : Nat} (enough : d.nodes.size ≤ a + depth) :
    x ∈ d.descendantsWithin depth a ↔ d.isElement x = true ∧ a ∈ d.ancestors x := by
  induction depth generalizing a with
  | zero =>
    refine ⟨fun h => absurd h List.not_mem_nil, fun ⟨_, h⟩ => ?_⟩
    have := arena.ancestorBelow h
    exact absurd this (Nat.not_lt.mpr enough)
  | succ depth ih =>
    rw [descendantsWithin, List.mem_flatMap]
    constructor
    · intro given
      obtain ⟨c, hc, h⟩ := given
      have above := arena.memChildren.mp hc
      have before := arena.parentBefore above
      have own : a ∈ d.ancestors c := (arena.memAncestorsChild above).mpr (.inl rfl)
      split at h
      · rename_i element
        rcases List.mem_cons.mp h with same | lower
        · subst same; exact ⟨element, own⟩
        · obtain ⟨elementX, way⟩ := (ih (show d.nodes.size ≤ c + depth by omega)).mp lower
          exact ⟨elementX, arena.ancestorsTrans way own⟩
      · cases h
    · intro given
      obtain ⟨element, h⟩ := given
      obtain ⟨c, above, way⟩ := arena.childTowards h
      have before := arena.parentBefore above
      refine ⟨c, arena.memChildren.mpr above, ?_⟩
      rcases way with same | lower
      · subst same
        rw [if_pos element]
        exact List.mem_cons_self
      · rw [if_pos (arena.ancestorElement lower)]
        exact List.mem_cons_of_mem _
          ((ih (show d.nodes.size ≤ c + depth by omega)).mpr ⟨element, lower⟩)

theorem descendantsNone (arena : d.Arena) {a : Nat} (beyond : d.nodes.size ≤ a) (depth : Nat) :
    d.descendantsWithin depth a = [] := by
  refine List.eq_nil_iff_forall_not_mem.mpr fun x listed => ?_
  have above := ((arena.memDescendantsWithin (Nat.le_add_right_of_le beyond)).mp listed).2
  exact absurd (arena.ancestorBelow above) (Nat.not_lt.mpr beyond)

/- Children have greater numbers, so any depth that reaches to the last node is enough. -/
theorem descendantsWithinEnough (arena : d.Arena) {a depth more : Nat}
    (enough : d.nodes.size ≤ a + depth) (evenMore : d.nodes.size ≤ a + more) :
    d.descendantsWithin depth a = d.descendantsWithin more a := by
  induction depth generalizing a more with
  | zero => rw [arena.descendantsNone (a := a) enough, arena.descendantsNone (a := a) enough]
  | succ depth ih =>
    cases more with
    | zero => rw [arena.descendantsNone (a := a) evenMore, arena.descendantsNone (a := a) evenMore]
    | succ more =>
      rw [descendantsWithin, descendantsWithin, List.flatMap_def, List.flatMap_def]
      refine congrArg List.flatten (List.map_congr_left fun c listed => ?_)
      have before := arena.parentBefore (arena.memChildren.mp listed)
      have reach : d.nodes.size ≤ c + depth := by omega
      have reachMore : d.nodes.size ≤ c + more := by omega
      rw [ih reach reachMore]

theorem memDescendants (arena : d.Arena) {a x : NodeId} :
    x ∈ d.descendants a ↔ d.isElement x = true ∧ a ∈ d.ancestors x :=
  arena.memDescendantsWithin (Nat.le_add_left _ _)

theorem attachedIffRoot (arena : d.Arena) {x : NodeId} :
    d.Attached x ↔ x = d.root ∨ d.root ∈ d.ancestors x := by
  constructor
  · intro attached
    induction attached with
    | root => exact .inl rfl
    | child _ above ih =>
      exact .inr ((arena.memAncestorsChild above).mpr (ih.imp_left Eq.symm))
  · induction x using arena.ancestorsInduction with
    | top x top =>
      intro given
      rcases given with same | below
      · exact same ▸ .root
      · rw [ancestorsTop top] at below; cases below
    | child x parent own ih =>
      intro given
      rcases given with same | below
      · exact same ▸ .root
      · refine .child (ih ?_) own
        exact ((arena.memAncestorsChild own).mp below).imp_left Eq.symm

theorem memElements (arena : d.Arena) {x : NodeId} :
    x ∈ d.elements ↔ d.isElement x = true ∧ d.Attached x := by
  unfold elements candidates
  rw [List.mem_cons, arena.memDescendants, arena.attachedIffRoot]
  constructor
  · intro given
    rcases given with same | ⟨element, below⟩
    · exact ⟨same ▸ arena.rootElement, .inl same⟩
    · exact ⟨element, .inr below⟩
  · intro given
    obtain ⟨element, same | below⟩ := given
    · exact .inl same
    · exact .inr ⟨element, below⟩

theorem attachedAbove (arena : d.Arena) {a x : NodeId} (attached : d.Attached x)
    (h : a ∈ d.ancestors x) : d.Attached a := by
  induction attached with
  | root => rw [ancestorsTop arena.rootParent] at h; cases h
  | child inside above ih =>
    rcases (arena.memAncestorsChild above).mp h with same | higher
    · exact same ▸ inside
    · exact ih higher

theorem elementAbove (arena : d.Arena) {a x : NodeId} (attached : x ∈ d.elements)
    (h : a ∈ d.ancestors x) : a ∈ d.elements :=
  arena.memElements.mpr ⟨arena.ancestorElement h,
    arena.attachedAbove (arena.memElements.mp attached).2 h⟩

theorem attachedBelow (arena : d.Arena) {a x : NodeId} (attached : d.Attached a)
    (h : a ∈ d.ancestors x) : d.Attached x := by
  induction x using arena.ancestorsInduction with
  | top x top => rw [ancestorsTop top] at h; cases h
  | child x parent own ih =>
    rcases (arena.memAncestorsChild own).mp h with same | higher
    · exact .child (same ▸ attached) own
    · exact .child (ih higher) own

end Arena

namespace Loses

variable {d d' : Document} {gone : NodeId → Prop}

theorem attachedBefore (h : d.Loses d' gone) {x : NodeId} (attached : d'.Attached x) :
    d.Attached x := by
  induction attached with
  | root => exact h.root ▸ .root
  | child _ above ih => exact .child ih (h.parentBefore above)

theorem elementBefore (h : d.Loses d' gone) (arena : d.Arena) {x : NodeId}
    (attached : x ∈ d'.elements) : x ∈ d.elements := by
  obtain ⟨element, inside⟩ := (h.arena arena).memElements.mp attached
  exact arena.memElements.mpr ⟨h.isElementSame ▸ element, h.attachedBefore inside⟩

theorem ancestorsBefore (h : d.Loses d' gone) (arena : d.Arena) {a x : NodeId}
    (above : a ∈ d'.ancestors x) : a ∈ d.ancestors x := by
  have arena' := h.arena arena
  induction x using arena'.ancestorsInduction with
  | top x top => rw [Arena.ancestorsTop top] at above; cases above
  | child x parent own ih =>
    refine (arena.memAncestorsChild (h.parentBefore own)).mpr ?_
    exact ((arena'.memAncestorsChild own).mp above).imp_right ih

theorem ancestorsSame (h : d.Loses d' gone) (arena : d.Arena) {x : NodeId}
    (attached : d'.Attached x) : d'.ancestors x = d.ancestors x := by
  have arena' := h.arena arena
  induction attached with
  | root => rw [Arena.ancestorsTop arena'.rootParent, h.root, Arena.ancestorsTop arena.rootParent]
  | child _ above ih =>
    rw [arena'.ancestorsChild above, arena.ancestorsChild (h.parentBefore above), ih]

theorem attachedAfter (h : d.Loses d' gone) (arena : d.Arena) {x : NodeId} (attached : d.Attached x)
    (uncut : d'.isCut x = false) (above : ∀ a ∈ d.ancestors x, d'.isCut a = false) :
    d'.Attached x := by
  induction attached with
  | root => exact h.root ▸ .root
  | @child parent id inside own ih =>
    have way {a : NodeId} (ha : a ∈ d.ancestors parent) : d'.isCut a = false :=
      above a ((arena.memAncestorsChild own).mpr (.inr ha))
    refine .child (ih (above parent ((arena.memAncestorsChild own).mpr (.inl rfl))) fun a => way) ?_
    exact parentParts.mpr ⟨uncut, h.originalParentSame ▸ (parentParts.mp own).2⟩

end Loses

theorem attachedUncut {d : Document} (arena : d.Arena) {x : NodeId} (attached : d.Attached x) :
    d.isCut x = false := by
  cases attached with
  | root => exact arena.rootUncut
  | child _ above => exact (parentParts.mp above).1

end Document
end EdmxPruning
