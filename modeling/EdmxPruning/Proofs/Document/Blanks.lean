import Mathlib.Data.List.Chain
import Mathlib.Tactic.ByContra
import EdmxPruning.Proofs.Document.Remainder

/-! Blank texts between elements. A removal takes along the blank before what it takes, so where no two
blanks stand side by side a blank is cut if and only if what follows it is cut, whatever was removed
and in whatever order. Then the elements that are left determine all that is left. -/
namespace EdmxPruning

namespace Document

def BlanksApart (d : Document) : Prop :=
  ∀ id ∈ d.elements, (d.children id).IsChain fun a b =>
    ¬ (d.isBlankText a = true ∧ d.isBlankText b = true)

instance (d : Document) : Decidable d.BlanksApart := by
  unfold BlanksApart
  infer_instance

/- What is left of a document has lost a blank if and only if it has lost the child after it. -/
def BlanksFollow (d d' : Document) : Prop :=
  ∀ parent ∈ d.elements, ∀ blank ∈ d.children parent, d.isBlankText blank = true →
    (d'.isCut blank = true ↔
      ∃ next, before? next (d.children parent) = some blank ∧ d'.isCut next = true)

section Before

variable {x w : NodeId} {ids : List NodeId}

theorem beforeLater {first : NodeId} (h : before? x (first :: ids) = some w) : x ∈ ids := by
  induction ids generalizing first with
  | nil => cases h
  | cons second rest ih =>
    rw [before?] at h
    split at h
    · rename_i same
      exact same ▸ List.mem_cons_self
    · exact List.mem_cons_of_mem _ (ih h)

theorem beforeChain {r : NodeId → NodeId → Prop} (chain : ids.IsChain r)
    (h : before? x ids = some w) : r w x := by
  fun_induction before? x ids with
  | case1 first rest => cases h; exact (List.isChain_cons_cons.mp chain).1
  | case2 first second rest _ ih => exact ih (List.isChain_cons_cons.mp chain).2 h
  | case3 => cases h

theorem beforeCons {first : NodeId} (nodup : ids.Nodup) (h : before? x ids = some w) :
    before? x (first :: ids) = some w := by
  cases ids with
  | nil => cases h
  | cons second rest =>
    have different : second ≠ x := fun same =>
      (List.nodup_cons.mp nodup).1 (same ▸ beforeLater h)
    rw [before?, if_neg different]
    exact h

theorem beforeFiltered {keep : NodeId → Bool} (nodup : ids.Nodup) (h : before? x ids = some w)
    (first : keep w = true) (second : keep x = true) : before? x (ids.filter keep) = some w := by
  fun_induction before? x ids with
  | case1 head rest =>
    cases h
    rw [List.filter_cons_of_pos first, List.filter_cons_of_pos second, before?, if_pos rfl]
  | case2 head next rest _ ih =>
    have later := ih (List.nodup_cons.mp nodup).2 h
    cases kept : keep head with
    | true =>
      rw [List.filter_cons_of_pos kept]
      exact beforeCons ((List.nodup_cons.mp nodup).2.filter keep) later
    | false =>
      rw [List.filter_cons_of_neg (by simp [kept])]
      exact later
  | case3 => cases h

theorem beforeUnfiltered {keep : NodeId → Bool} (nodup : ids.Nodup)
    (h : before? x (ids.filter keep) = some w) :
    ∃ y, before? y ids = some w ∧ (y = x ∨ keep y = false) := by
  induction ids with
  | nil => cases h
  | cons head rest ih =>
    have restNodup := (List.nodup_cons.mp nodup).2
    have deeper (inner : before? x (rest.filter keep) = some w) :
        ∃ y, before? y (head :: rest) = some w ∧ (y = x ∨ keep y = false) := by
      obtain ⟨y, found, fate⟩ := ih restNodup inner
      exact ⟨y, beforeCons restNodup found, fate⟩
    cases kept : keep head with
    | false =>
      rw [List.filter_cons_of_neg (by simp [kept])] at h
      exact deeper h
    | true =>
      rw [List.filter_cons_of_pos kept] at h
      cases shape : rest.filter keep with
      | nil => rw [shape] at h; cases h
      | cons second later =>
        rw [shape, before?] at h
        split at h
        · rename_i same
          cases h
          cases rest with
          | nil => cases shape
          | cons next others =>
            refine ⟨next, by rw [before?, if_pos rfl], ?_⟩
            cases keptNext : keep next with
            | false => exact .inr rfl
            | true =>
              rw [List.filter_cons_of_pos keptNext] at shape
              exact .inl ((List.cons.inj shape).1.trans same)
        · exact deeper (shape ▸ h)

end Before

theorem beforeOf {x w : NodeId} {ids : List NodeId} (h : before? x ids = some w) : x ∈ ids := by
  cases ids with
  | nil => cases h
  | cons head rest => exact List.mem_cons_of_mem _ (beforeLater h)

theorem Arena.childrenNodup {d : Document} (arena : d.Arena) (id : NodeId) : (d.children id).Nodup :=
  ((arena.ascending id).filter _).imp Nat.ne_of_lt

section Following

variable {d d' : Document} {gone : NodeId → Prop} (arena : d.Arena) (apart : d.BlanksApart)
include arena

theorem childUncut {parent child : NodeId} (above : child ∈ d.children parent) :
    d.isCut child = false := (parentParts.mp (arena.memChildren.mp above)).1

theorem blanksFollowRefl : d.BlanksFollow d := by
  intro parent _ blank listed _
  constructor
  · intro cut
    rw [childUncut arena listed] at cut
    cases cut
  · intro given
    obtain ⟨next, after, cut⟩ := given
    rw [childUncut arena (beforeOf after)] at cut
    cases cut

include apart

omit arena in
theorem blankApart {parent blank next : NodeId} (inside : parent ∈ d.elements)
    (after : before? next (d.children parent) = some blank) (isBlank : d.isBlankText blank = true) :
    d.isBlankText next = false :=
  Bool.eq_false_iff.mpr fun both => beforeChain (apart parent inside) after ⟨isBlank, both⟩

/- The step: the blank that goes with an element is the one before it, in what is left as in the
whole, for what stood between the two would have taken the blank along. -/
theorem BlanksFollow.remove (lose : d.Loses d' gone) (follow : d.BlanksFollow d') {d'' : Document}
    {id : NodeId} (element : d.isElement id = true) (ok : d'.remove? id = some d'') :
    d.BlanksFollow d'' := by
  obtain ⟨holder, above, cuts⟩ := removeCuts (lose.arena arena) ok
  have aboveBefore := lose.parentBefore above
  intro parent inside blank listed isBlank
  have nodup := arena.childrenNodup parent
  constructor
  · intro cut
    have firstCut : (∃ next, before? next (d.children parent) = some blank ∧ d'.isCut next = true) →
        ∃ next, before? next (d.children parent) = some blank ∧ d''.isCut next = true := by
      intro given
      obtain ⟨next, after, old⟩ := given
      exact ⟨next, after, (cuts next).mpr (.inl old)⟩
    rcases (cuts blank).mp cut with old | same | indent
    · exact firstCut ((follow parent inside blank listed isBlank).mp old)
    · rw [same, elementNotBlank element] at isBlank
      cases isBlank
    · have found := (Option.filter_eq_some_iff.mp indent).1
      have held := lose.parentBefore ((lose.arena arena).memChildren.mp (indentParts indent).1)
      cases (arena.memChildren.mp listed).symm.trans held
      rw [lose.childrenLeft] at found
      obtain ⟨next, after, same | old⟩ := beforeUnfiltered nodup found
      · exact ⟨next, after, (cuts next).mpr (.inr (.inl same))⟩
      · exact firstCut ⟨next, after, by simpa using old⟩
  · intro given
    obtain ⟨next, after, cut⟩ := given
    rcases (cuts next).mp cut with old | same | indent
    · have before := (follow parent inside blank listed isBlank).mpr ⟨next, after, old⟩
      exact (cuts blank).mpr (.inl before)
    · subst same
      cases there : d'.isCut blank with
      | true => exact (cuts blank).mpr (.inl there)
      | false =>
        cases (arena.memChildren.mp (beforeOf after)).symm.trans aboveBefore
        have uncut := (parentParts.mp above).1
        have left : before? next ((d.children holder).filter (!d'.isCut ·)) = some blank :=
          beforeFiltered nodup after (by simp [there]) (by simp [uncut])
        rw [← lose.childrenLeft] at left
        refine (cuts blank).mpr (.inr (.inr (Option.filter_eq_some_iff.mpr ⟨left, ?_⟩)))
        exact lose.isBlankTextSame ▸ isBlank
    · have both := (indentParts indent).2
      rw [lose.isBlankTextSame, blankApart apart inside after isBlank] at both
      cases both

omit apart in
theorem cutChild (lose : d.Loses d' gone) (elements : ∀ id, gone id → d.isElement id = true)
    {parent child : NodeId} (listed : child ∈ d.children parent) (cut : d'.isCut child = true)
    (notBlank : d.isBlankText child = false) : d.isElement child = true := by
  rcases lose.lost child cut with old | now | blank
  · rw [childUncut arena listed] at old
    cases old
  · exact elements child now
  · rw [notBlank] at blank
    cases blank

variable {a b : Document} {goneA goneB : NodeId → Prop} (loseA : d.Loses a goneA)
  (loseB : d.Loses b goneB) (followA : d.BlanksFollow a) (followB : d.BlanksFollow b)
  (elements : ∀ id, goneB id → d.isElement id = true)
  (same : ∀ id, id ∈ a.elements ↔ id ∈ b.elements)
include loseA loseB followA followB elements same

/- A blank that is left in one remainder and cut in another has lost its follower there, and the
follower is an element, since it is no blank. -/
theorem blankStays {parent blank : NodeId} (there : parent ∈ a.elements)
    (above : a.parent? blank = some parent) (isBlank : d.isBlankText blank = true) :
    b.isCut blank = false := by
  have arenaB := loseB.arena arena
  have inside := loseA.elementBefore arena there
  have listed := arena.memChildren.mpr (loseA.parentBefore above)
  refine Bool.eq_false_iff.mpr fun cut => ?_
  obtain ⟨next, after, cutNext⟩ := (followB parent inside blank listed isBlank).mp cut
  have aboveNext := arena.memChildren.mp (beforeOf after)
  have element := cutChild arena loseB elements (beforeOf after) cutNext
    (blankApart apart inside after isBlank)
  have cutBoth : a.isCut next = true := by
    by_contra left
    have stays := loseA.childStays arena there aboveNext element (Bool.eq_false_iff.mpr left)
    rw [attachedUncut arenaB (arenaB.memElements.mp ((same next).mp stays)).2] at cutNext
    cases cutNext
  have cutFirst := (followA parent inside blank listed isBlank).mpr ⟨next, after, cutBoth⟩
  rw [(parentParts.mp above).1] at cutFirst
  cases cutFirst

theorem attachedFollows {id : NodeId} (attached : a.Attached id) : b.Attached id := by
  have arenaA := loseA.arena arena
  have arenaB := loseB.arena arena
  induction attached with
  | root => exact loseA.root ▸ loseB.root ▸ .root
  | @child parent id inside above ih =>
    have there : parent ∈ a.elements := arenaA.memElements.mpr ⟨arenaA.parentElement above, inside⟩
    have aboveBefore := loseA.parentBefore above
    refine .child ih (loseB.childLeft aboveBefore ?_)
    cases isBlank : d.isBlankText id with
    | true =>
      exact blankStays arena apart loseA loseB followA followB elements same there above isBlank
    | false =>
      refine Bool.eq_false_iff.mpr fun cut => ?_
      have element := cutChild arena loseB elements (arena.memChildren.mpr aboveBefore) cut isBlank
      have stays : id ∈ a.elements :=
        arenaA.memElements.mpr ⟨loseA.isElementSame ▸ element, .child inside above⟩
      rw [attachedUncut arenaB (arenaB.memElements.mp ((same id).mp stays)).2] at cut
      cases cut

end Following

section Written

theorem uncutTogether {a b : Document} (nodes : a.nodes = b.nodes) (arenaA : a.Arena)
    (arenaB : b.Arena) (inside : ∀ id, a.Attached id → b.Attached id) {id child : NodeId}
    (attached : a.Attached id) (below : child ∈ b.originalChildren id) (uncut : a.isCut child = false) :
    b.isCut child = false := by
  have listed : child ∈ a.originalChildren id := by
    unfold originalChildren at below ⊢
    rw [nodes]
    exact below
  have above := arenaA.memChildren.mp (memChildren.mpr ⟨listed, uncut⟩)
  exact attachedUncut arenaB (inside child (.child attached above))

variable {a b : Document} (nodes : a.nodes = b.nodes) (arenaA : a.Arena) (arenaB : b.Arena)
  (same : ∀ id, a.Attached id ↔ b.Attached id)
include nodes arenaA arenaB same

theorem childrenTogether {id : NodeId} (attached : a.Attached id) : a.children id = b.children id := by
  have original : a.originalChildren id = b.originalChildren id := by
    unfold originalChildren
    rw [nodes]
  show (a.originalChildren id).filter _ = (b.originalChildren id).filter _
  rw [original]
  refine List.filter_congr fun child below => ?_
  cases cutA : a.isCut child with
  | false =>
    rw [uncutTogether nodes arenaA arenaB (fun x => (same x).mp) attached below cutA]
  | true =>
    cases cutB : b.isCut child with
    | true => rfl
    | false =>
      rw [← original] at below
      rw [uncutTogether nodes.symm arenaB arenaA (fun x => (same x).mpr) ((same id).mp attached) below
        cutB] at cutA
      cases cutA

theorem forestTogether {depth : Nat} {ids : List NodeId}
    (inside : ∀ id ∈ ids, a.isElement id = true → a.Attached id) :
    a.forestWithin depth ids = b.forestWithin depth ids := by
  induction depth generalizing ids with
  | zero => rfl
  | succ depth ih =>
    have content (id : NodeId) : a.content? id = b.content? id := by
      unfold content?
      rw [nodes]
    induction ids with
    | nil => rfl
    | cons id rest later =>
      have after := later fun x member => inside x (List.mem_cons_of_mem _ member)
      rw [forestWithinCons, forestWithinCons, after, ← content]
      cases shape : a.content? id with
      | none => rfl
      | some own =>
        cases own with
        | leaf l => rfl
        | element tag uri =>
          have element : a.isElement id = true := by simp [isElement, tag?, shape]
          have attached := inside id List.mem_cons_self element
          simp only
          rw [← childrenTogether nodes arenaA arenaB same attached, ih fun child listed _ =>
            .child attached (arenaA.memChildren.mp listed)]

theorem textTogether (topLevel : a.topLevel = b.topLevel) : a.toXml = b.toXml := by
  have forests : a.forest = b.forest := by
    unfold forest
    rw [← topLevel, ← nodes]
    refine forestTogether nodes arenaA arenaB same fun id listed element => ?_
    exact arenaA.rootOnly id listed element ▸ .root
  unfold toXml tokens
  rw [forests]

end Written

end Document
end EdmxPruning
