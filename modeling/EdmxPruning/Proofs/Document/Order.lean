import Mathlib.Data.List.Flatten
import Mathlib.Data.List.Pairwise
import EdmxPruning.Proofs.Document.Listing
import EdmxPruning.Proofs.Document.Renumbering

/-! Document order. The walk down a document meets the elements in the order of their numbers, and what
is left of a document is met in that order still, also below a node that was taken out. -/
namespace EdmxPruning
open Markup

namespace Document

theorem metElement (id : NodeId) (tag : Tag) (steps : List (NodeId × Mark)) :
    met ((id, .opening tag) :: steps ++ [(id, .closing tag.name)]) = id :: met steps := by
  show id :: met (steps ++ [(id, .closing tag.name)]) = _
  rw [metAppend]
  simp [met]

section Walk

variable (d : Document) {depth : Nat}

theorem metLevel (deeper : ∀ id, (met (d.listingWithin depth (d.children id))).filter d.isElement =
      d.descendantsWithin depth id) (ids : List NodeId) :
    (met (d.listingWithin (depth + 1) ids)).filter d.isElement =
      (ids.filter d.isElement).flatMap fun id => id :: d.descendantsWithin depth id := by
  induction ids with
  | nil => rfl
  | cons id rest ih =>
    rw [listingWithinCons, metAppend, List.filter_append, ih]
    cases shape : d.content? id with
    | none => simp [met, isElement, tag?, shape]
    | some content =>
      cases content with
      | leaf l => simp [met, isElement, tag?, shape]
      | element tag uri =>
        have element : d.isElement id = true := by simp [isElement, tag?, shape]
        simp only [metElement, List.filter_cons_of_pos element, deeper, List.flatMap_cons]

theorem metElements (depth : Nat) (ids : List NodeId) :
    (met (d.listingWithin (depth + 1) ids)).filter d.isElement =
      (ids.filter d.isElement).flatMap fun id => id :: d.descendantsWithin depth id := by
  induction depth generalizing ids with
  | zero => exact d.metLevel (fun _ => rfl) ids
  | succ depth ih => exact d.metLevel (fun id => by rw [ih, descendantsWithinBelow]) ids

end Walk

theorem contentBelow {d : Document} {id : NodeId} {content : Content}
    (found : d.content? id = some content) : id < d.nodes.size := by
  obtain ⟨node, there, _⟩ := Option.map_eq_some_iff.mp found
  exact (Array.getElem?_eq_some_iff.mp there).1

theorem elementBelow {d : Document} {id : NodeId} (element : d.isElement id = true) :
    id < d.nodes.size := by
  obtain ⟨tag, tagged⟩ := Option.isSome_iff_exists.mp element
  obtain ⟨uri, found⟩ := taggedContent tagged
  exact contentBelow found

section Parsed

variable {text : String} {d : Document} (read : parse text = .ok d)
include read

theorem parsedElement {id : NodeId} (element : d.isElement id = true) : id ∈ d.elements := by
  have arena := (Reached.parsed read).arena
  obtain ⟨f, _, placed⟩ := parseParts read
  refine arena.memElements.mpr ⟨element, ?_⟩
  induction id using arena.ancestorsInduction with
  | top id top =>
    have original : d.originalParent? id = none := by
      simpa [parent?, ofForestUncut placed, originalParent?] using top
    have listed := (arena.topLevel id).mpr ⟨elementBelow element, original⟩
    exact arena.rootOnly id listed element ▸ .root
  | child id parent own ih => exact .child (ih (arena.parentElement own)) own

theorem parsedElements : d.elements = (List.range d.nodes.size).filter d.isElement := by
  have arena := (Reached.parsed read).arena
  obtain ⟨f, _, placed⟩ := parseParts read
  obtain ⟨_, _, top, _⟩ := ofForestParts placed
  obtain ⟨stands, size⟩ := ofForestStands placed
  have numbers : met (d.listingWithin (d.nodes.size + 1) (f.roots 0)) =
      List.range' 0 d.nodes.size :=
    (standsListing stands (ofForestUncut placed) (by rw [size, Nat.zero_add]) (Nat.le_succ _)).2
  have walk := d.metElements d.nodes.size d.topLevel
  rw [arena.rootAlone, top, numbers, ← List.range_eq_range'] at walk
  rw [walk]
  simp [elements, candidates, descendants]

theorem parsedAscending : d.elements.Pairwise fun a b : Nat => a < b := by
  rw [parsedElements read]
  exact List.pairwise_lt_range.filter _

end Parsed

theorem Arena.leafChildless {d : Document} (arena : d.Arena) {id : NodeId}
    (leaf : d.isElement id = false) : d.children id = [] := by
  refine List.eq_nil_iff_forall_not_mem.mpr fun child listed => ?_
  have above := arena.parentElement (arena.memChildren.mp listed)
  rw [leaf] at above
  cases above

theorem Arena.descendantsPart {d : Document} (arena : d.Arena) {id : NodeId}
    (attached : id ∈ d.elements) : (id :: d.descendants id).Sublist d.elements := by
  obtain ⟨element, inside⟩ := arena.memElements.mp attached
  induction inside with
  | root => exact .refl _
  | @child parent id inside above ih =>
    have parentElement := arena.parentElement above
    have below : (id :: d.descendants id).Sublist (d.descendants parent) := by
      rw [arena.descendantsBelow parent, List.flatMap_def]
      refine List.sublist_flatten_of_mem (List.mem_map_of_mem ?_)
      exact List.mem_filter.mpr ⟨arena.memChildren.mpr above, element⟩
    have there := arena.memElements.mpr ⟨parentElement, inside⟩
    exact (below.trans (List.sublist_cons_self _ _)).trans (ih there parentElement)

theorem Loses.descendantsPart {d left : Document} {gone : NodeId → Prop} (lose : d.Loses left gone)
    (id : NodeId) : (left.descendants id).Sublist (d.descendants id) := by
  have within (depth : Nat) : (left.descendantsWithin depth id).Sublist
      (d.descendantsWithin depth id) := by
    induction depth generalizing id with
    | zero => exact .slnil
    | succ depth ih =>
      rw [descendantsWithinBelow, descendantsWithinBelow, lose.childrenLeft, lose.isElementSame]
      refine (List.Sublist.flatMap_right _ fun c _ => (ih c).cons_cons c).trans ?_
      exact (List.filter_sublist.filter _).flatMap _
  unfold descendants
  rw [lose.nodes]
  exact within _

theorem Reached.descendantsAscending {d : Document} (reached : d.Reached) (id : NodeId) :
    (d.descendants id).Pairwise fun a b : Nat => a < b := by
  induction reached with
  | @parsed _ d read =>
    have arena := (Reached.parsed read).arena
    cases element : d.isElement id with
    | true =>
      have part := arena.descendantsPart (parsedElement read element)
      exact ((parsedAscending read).sublist part).of_cons
    | false =>
      rw [arena.descendantsBelow, arena.leafChildless element]
      exact .nil
  | removed before ok ih => exact ih.sublist ((removeLoses before.arena ok).descendantsPart id)

/- The ways down to two attached nodes part below some node, unless one of the two is above the other. -/
theorem Arena.waysPart {d : Document} (arena : d.Arena) {a b : NodeId} (attached : d.Attached a)
    (attachedToo : d.Attached b) (different : a ≠ b) (apart : a ∉ d.ancestors b)
    (apartToo : b ∉ d.ancestors a) : ∃ p first second, d.parent? first = some p ∧
      d.parent? second = some p ∧ first ≠ second ∧ (first = a ∨ first ∈ d.ancestors a) ∧
      (second = b ∨ second ∈ d.ancestors b) := by
  induction b using arena.ancestorsInduction with
  | top b top =>
    rw [arena.attachedIffRoot, Arena.ancestorsTop top] at attachedToo
    have root : b = d.root := attachedToo.resolve_right List.not_mem_nil
    rcases arena.attachedIffRoot.mp attached with same | below
    · exact absurd (same.trans root.symm) different
    · exact absurd (root ▸ below) apartToo
  | child b parent own ih =>
    rw [arena.memAncestorsChild own, not_or] at apart
    have parentAttached := arena.attachedAbove attachedToo ((arena.memAncestorsChild own).mpr (.inl rfl))
    by_cases above : parent ∈ d.ancestors a
    · obtain ⟨c, parentToo, way⟩ := arena.childTowards above
      refine ⟨parent, c, b, parentToo, own, fun same => ?_, way, .inl rfl⟩
      exact (same ▸ way).elim (different ∘ Eq.symm) apartToo
    · obtain ⟨p, first, second, parentFirst, parentSecond, other, way, wayToo⟩ :=
        ih parentAttached apart.1 apart.2 above
      exact ⟨p, first, second, parentFirst, parentSecond, other, way,
        .inr ((arena.memAncestorsChild own).mpr wayToo)⟩

theorem Arena.inBranch {d : Document} (arena : d.Arena) {top base x : NodeId}
    (element : d.isElement base = true) (way : top = base ∨ top ∈ d.ancestors base)
    (below : x ∈ base :: d.descendants base) : x ∈ top :: d.descendants top := by
  rcases way with same | above
  · exact same ▸ below
  · refine List.mem_cons_of_mem _ (arena.memDescendants.mpr ?_)
    rcases List.mem_cons.mp below with same | lower
    · exact same ▸ ⟨element, above⟩
    · obtain ⟨elementX, higher⟩ := arena.memDescendants.mp lower
      exact ⟨elementX, arena.ancestorsTrans higher above⟩

def Before (d : Document) (a b : Nat) : Prop :=
  ∀ x ∈ a :: d.descendants a, ∀ y ∈ b :: d.descendants b, x < y

theorem Reached.siblingsInOrder {d : Document} (reached : d.Reached) {a b p : NodeId}
    (parent : d.parent? a = some p) (parentToo : d.parent? b = some p)
    (element : d.isElement a = true) (elementToo : d.isElement b = true) (different : a ≠ b) :
    d.Before a b ∨ d.Before b a := by
  have arena := reached.arena
  have listed {c : NodeId} (own : d.parent? c = some p) (element : d.isElement c = true) :
      c ∈ (d.children p).filter d.isElement :=
    List.mem_filter.mpr ⟨arena.memChildren.mpr own, element⟩
  have whole := reached.descendantsAscending p
  rw [arena.descendantsBelow, List.pairwise_flatMap] at whole
  have either : ((d.children p).filter d.isElement).Pairwise fun c c' => d.Before c c' ∨ d.Before c' c :=
    whole.2.imp Or.inl
  have : Std.Symm fun c c' => d.Before c c' ∨ d.Before c' c := ⟨fun _ _ => Or.symm⟩
  exact either.forall (listed parent element) (listed parentToo elementToo) different

theorem Reached.partsInOrder {d : Document} (reached : d.Reached) {a b : Nat}
    (there : a ∈ d.elements) (thereToo : b ∈ d.elements) (less : a < b) (apart : a ∉ d.ancestors b) :
    d.Before a b := by
  have arena := reached.arena
  obtain ⟨element, attached⟩ := arena.memElements.mp there
  obtain ⟨elementToo, attachedToo⟩ := arena.memElements.mp thereToo
  have apartToo : b ∉ d.ancestors a := fun above =>
    absurd (arena.ancestorBefore above) (Nat.lt_asymm less)
  obtain ⟨p, first, second, parent, parentToo, different, way, wayToo⟩ :=
    arena.waysPart attached attachedToo (Nat.ne_of_lt less) apart apartToo
  have elementOn {c base : NodeId} (element : d.isElement base = true)
      (way : c = base ∨ c ∈ d.ancestors base) : d.isElement c = true :=
    way.elim (fun same => same ▸ element) arena.ancestorElement
  rcases reached.siblingsInOrder parent parentToo (elementOn element way) (elementOn elementToo wayToo)
    different with before | after
  · exact fun x inside y insideToo => before x (arena.inBranch element way inside) y
      (arena.inBranch elementToo wayToo insideToo)
  · have more := after b (arena.inBranch elementToo wayToo List.mem_cons_self) a
      (arena.inBranch element way List.mem_cons_self)
    exact absurd less (Nat.lt_asymm more)

end Document
end EdmxPruning
