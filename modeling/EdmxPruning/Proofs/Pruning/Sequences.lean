import Mathlib.Data.List.Nodup
import EdmxPruning.Proofs.Document.Adjacency
import EdmxPruning.Proofs.Pruning.Removals

/-! Sequences of removals. Where no two blanks stand side by side their order has no effect: each element
on the list that has a parent goes with the blank that stood before it at the start, and nothing else
goes. -/
namespace EdmxPruning
open Markup

namespace Document

theorem BlanksApartAnywhere.removeAll {d : Document} (arena : d.Arena)
    (apart : d.BlanksApartAnywhere) (ids : List NodeId) :
    (d.removeAll ids).document.BlanksApartAnywhere := by
  induction ids generalizing d with
  | nil => exact apart
  | cons id rest ih =>
    unfold Document.removeAll
    cases tried : d.remove? id with
    | none => exact ih arena apart
    | some smaller => exact ih ((removeLoses arena tried).arena arena) (apart.remove arena tried)

def departing (d : Document) (ids : List NodeId) : List NodeId :=
  ids.flatMap fun id =>
    match d.parent? id with
    | none => []
    | some parent => id :: (d.indent? parent id).toList

theorem departingSnoc (d : Document) (done : List NodeId) (id : NodeId) :
    d.departing (done ++ [id]) = d.departing done ++ d.departing [id] := List.flatMap_append

theorem memDeparting {d : Document} {ids : List NodeId} {x : NodeId} : x ∈ d.departing ids ↔
    ∃ id ∈ ids, ∃ parent, d.parent? id = some parent ∧
      (x = id ∨ d.indent? parent id = some x) := by
  unfold departing
  rw [List.mem_flatMap]
  refine exists_congr fun id => and_congr_right fun _ => ?_
  cases d.parent? id with
  | none => simp
  | some parent => simp

theorem departingListed {d : Document} {ids : List NodeId} {x : NodeId} (goes : x ∈ d.departing ids)
    (filled : d.isBlankText x = false) : x ∈ ids := by
  obtain ⟨id, listed, parent, _, same | indent⟩ := memDeparting.mp goes
  · exact same ▸ listed
  · rw [(indentParts indent).2] at filled
    cases filled

/- What is left of a document lacks exactly what was to go with the nodes removed so far. -/
structure Departed (d m : Document) (done : List NodeId) : Prop where
  left : d.Loses m fun _ => True
  cuts : ∀ x : NodeId, m.isCut x = true ↔ d.isCut x = true ∨ x ∈ d.departing done

section Departing

variable {d m : Document} {done : List NodeId}

theorem Departed.skip (departed : d.Departed m done) {id : NodeId}
    (element : d.isElement id = true) (none : m.remove? id = none) : d.Departed m (done ++ [id]) := by
  refine ⟨departed.left, fun x => ?_⟩
  have covered : x ∈ d.departing [id] → x ∈ d.departing done := by
    intro goes
    obtain ⟨_, listed, parent, above, fate⟩ := memDeparting.mp goes
    cases List.mem_singleton.mp listed
    have detached := removeNone none
    have cut : m.isCut id = true := by
      by_contra uncut
      rw [departed.left.childLeft above (Bool.eq_false_iff.mpr uncut)] at detached
      cases detached
    rcases (departed.cuts id).mp cut with old | before
    · rw [(parentParts.mp above).1] at old
      cases old
    · exact memDeparting.mpr
        ⟨id, departingListed before (elementNotBlank element), parent, above, fate⟩
  rw [departed.cuts, departingSnoc, List.mem_append, or_iff_left_of_imp covered]

variable (arena : d.Arena) (departed : d.Departed m done)
include arena departed

/- What stood between a blank and an element and is gone by now would have taken the blank along. -/
theorem Departed.indentBefore (apart : d.BlanksApartAnywhere) {parent id blank : NodeId}
    (indent : m.indent? parent id = some blank) : d.indent? parent id = some blank := by
  obtain ⟨found, isBlank⟩ := Option.filter_eq_some_iff.mp indent
  rw [departed.left.isBlankTextSame] at isBlank
  have uncut := childUncut (departed.left.arena arena) (indentParts indent).1
  rw [departed.left.childrenLeft] at found
  obtain ⟨next, after, same | lost⟩ := beforeUnfiltered (arena.childrenNodup parent) found
  · rw [← same]
    exact Option.filter_eq_some_iff.mpr ⟨after, isBlank⟩
  · have above := arena.memChildren.mp (beforeOf after)
    have filled : d.isBlankText next = false := Bool.eq_false_iff.mpr fun both =>
      beforeChain (apart parent (arena.parentBelow above)) after ⟨isBlank, both⟩
    rcases (departed.cuts next).mp (by simpa using lost) with old | goes
    · rw [(parentParts.mp above).1] at old
      cases old
    · have taken := memDeparting.mpr ⟨next, departingListed goes filled, parent, above,
        .inr (Option.filter_eq_some_iff.mpr ⟨after, isBlank⟩)⟩
      rw [(departed.cuts blank).mpr (.inr taken)] at uncut
      cases uncut

theorem Departed.indentAfter {parent id blank : NodeId} (above : m.parent? id = some parent)
    (indent : d.indent? parent id = some blank) :
    m.isCut blank = true ∨ m.indent? parent id = some blank := by
  obtain ⟨found, isBlank⟩ := Option.filter_eq_some_iff.mp indent
  cases cut : m.isCut blank with
  | true => exact .inl rfl
  | false =>
    have kept : m.isCut id = false := (parentParts.mp above).1
    have left : before? id ((d.children parent).filter (!m.isCut ·)) = some blank :=
      beforeFiltered (arena.childrenNodup parent) found (by simp [cut]) (by simp [kept])
    rw [← departed.left.childrenLeft] at left
    exact .inr (Option.filter_eq_some_iff.mpr ⟨left, departed.left.isBlankTextSame ▸ isBlank⟩)

theorem Departed.remove (apart : d.BlanksApartAnywhere) {m' : Document} {id : NodeId}
    (ok : m.remove? id = some m') : d.Departed m' (done ++ [id]) := by
  have arenaM := departed.left.arena arena
  obtain ⟨parent, above, cuts⟩ := removeCuts arenaM ok
  have aboveBefore := departed.left.parentBefore above
  refine ⟨departed.left.trans ((removeLoses arenaM ok).weaken fun _ _ => trivial), fun x => ?_⟩
  have own : x ∈ d.departing [id] ↔ x = id ∨ d.indent? parent id = some x := by
    simp [departing, aboveBefore]
  rw [cuts, departed.cuts, departingSnoc, List.mem_append, own]
  constructor
  · intro given
    rcases given with (old | goes) | same | indent
    · exact .inl old
    · exact .inr (.inl goes)
    · exact .inr (.inr (.inl same))
    · exact .inr (.inr (.inr (departed.indentBefore arena apart indent)))
  · intro given
    rcases given with old | goes | same | indent
    · exact .inl (.inl old)
    · exact .inl (.inr goes)
    · exact .inr (.inl same)
    · rcases departed.indentAfter arena above indent with cut | now
      · exact .inl ((departed.cuts x).mp cut)
      · exact .inr (.inr now)

theorem Departed.removeAll (apart : d.BlanksApartAnywhere) {ids : List NodeId}
    (elements : ∀ id ∈ ids, d.isElement id = true) :
    d.Departed (m.removeAll ids).document (done ++ ids) := by
  induction ids generalizing m done with
  | nil => simpa [Document.removeAll] using departed
  | cons id rest ih =>
    have restElements : ∀ x ∈ rest, d.isElement x = true :=
      fun x member => elements x (List.mem_cons_of_mem _ member)
    rw [List.append_cons]
    unfold Document.removeAll
    cases tried : m.remove? id with
    | none => exact ih (departed.skip (elements id List.mem_cons_self) tried) restElements
    | some smaller => exact ih (departed.remove arena apart tried) restElements

end Departing

theorem departedNone (d : Document) : d.Departed d [] :=
  ⟨.refl d _, fun x => by simp [departing]⟩

theorem Loses.cutAlike {d a b : Document} {goneA goneB : NodeId → Prop} (first : d.Loses a goneA)
    (second : d.Loses b goneB) (same : ∀ id : NodeId, a.isCut id = true ↔ b.isCut id = true) :
    a = b := by
  have nodes : a.nodes = b.nodes := first.nodes.trans second.nodes.symm
  have cuts : a.cuts = b.cuts := by
    refine Array.ext (by rw [a.sizes, b.sizes, nodes]) fun id inA inB => ?_
    have own := Bool.eq_iff_iff.mpr (same id)
    simpa [isCut, inA, inB] using own
  have topLevel := first.topLevel.trans second.topLevel.symm
  have root := first.root.trans second.root.symm
  have uri := first.defaultNamespace.trans second.defaultNamespace.symm
  cases a
  cases b
  cases nodes
  cases cuts
  cases topLevel
  cases root
  cases uri
  rfl

structure LacksOnly (d left : Document) (gone : List NodeId) : Prop where
  contents : ∀ x, left.content? x = d.content? x
  parents : ∀ x, left.parent? x = if x ∈ gone then none else d.parent? x
  children : ∀ p, left.children p = (d.children p).filter fun c => decide (c ∉ gone)

theorem Departed.lacksOnly {d m : Document} {done : List NodeId} (arena : d.Arena)
    (departed : d.Departed m done) : d.LacksOnly m (d.departing done) where
  contents x := by rw [departed.left.contentSame]
  parents x := by
    split
    · rename_i goes
      unfold parent?
      rw [(departed.cuts x).mpr (.inr goes), if_pos rfl]
    · rename_i stays
      have cut : m.isCut x = d.isCut x := by
        rw [Bool.eq_iff_iff, departed.cuts, or_iff_left stays]
      unfold parent?
      rw [cut, departed.left.nodes]
  children p := by
    rw [departed.left.childrenLeft]
    refine List.filter_congr fun c listed => ?_
    have uncut := childUncut arena listed
    rw [Bool.eq_iff_iff, Bool.not_eq_true', ← Bool.not_eq_true, departed.cuts, uncut]
    simp

theorem removedPerm {d : Document} (arena : d.Arena) {ids others : List NodeId}
    (elements : ∀ id ∈ ids, d.isElement id = true)
    (otherElements : ∀ id ∈ others, d.isElement id = true) (same : ids.Perm others) :
    (d.removeAll ids).removed.Perm (d.removeAll others).removed := by
  refine (List.perm_ext_iff_of_nodup (removedNodup arena ids)
    (removedNodup arena others)).mpr fun id => ?_
  rw [memRemoved arena elements, memRemoved arena otherElements, same.mem_iff]

end Document

theorem removalOrderHasNoEffect :
    (∀ text d, Document.parse text = .ok d → DeclaredOutside (scan text).tokens → ∀ ids,
      (d.removeAll ids).document.BlanksApartAnywhere) ∧
    ∀ d : Document, d.Reached → d.BlanksApartAnywhere → ∀ ids others : List NodeId,
      (∀ id ∈ ids, d.isElement id = true) → ids.Perm others →
      (d.removeAll ids).document = (d.removeAll others).document ∧
      (d.removeAll ids).removed.length = (d.removeAll others).removed.length ∧
      d.LacksOnly (d.removeAll ids).document (d.departing ids) := by
  refine ⟨fun text d read outside ids => ?_, fun d reached apart ids others elements same => ?_⟩
  · exact (Document.parsedApart read outside).removeAll (Document.Reached.parsed read).arena ids
  · have arena := reached.arena
    have otherElements : ∀ id ∈ others, d.isElement id = true :=
      fun id listed => elements id (same.mem_iff.mpr listed)
    have first := (Document.departedNone d).removeAll arena apart elements
    have second := (Document.departedNone d).removeAll arena apart otherElements
    rw [List.nil_append] at first second
    refine ⟨first.left.cutAlike second.left fun x => ?_,
      (Document.removedPerm arena elements otherElements same).length_eq, first.lacksOnly arena⟩
    rw [first.cuts, second.cuts]
    simp only [Document.memDeparting, same.mem_iff]

theorem removedInAnyOrder : ∃ d : Document,
    Document.parse "<?xml?><a> <b/><c> <d/>x</c> <e/></a>" = .ok d ∧ d.BlanksApartAnywhere ∧
    (d.removeAll [3, 2, 8, 5, 3, 0]).removed.length = 4 ∧
    (d.removeAll [3, 2, 8, 5, 3, 0]).removed ≠ (d.removeAll [8, 0, 5, 3, 3, 2]).removed ∧
    (d.removeAll [3, 2, 8, 5, 3, 0]).document = (d.removeAll [8, 0, 5, 3, 3, 2]).document := by
  obtain ⟨d, read, facts⟩ := Document.okWith
    (x := Document.parse "<?xml?><a> <b/><c> <d/>x</c> <e/></a>")
    (p := fun d => decide ((∀ id ∈ ([3, 2, 8, 5, 3, 0] : List Nat), d.isElement id = true) ∧
      (d.removeAll [3, 2, 8, 5, 3, 0]).removed.length = 4 ∧
      (d.removeAll [3, 2, 8, 5, 3, 0]).removed ≠ (d.removeAll [8, 0, 5, 3, 3, 2]).removed))
    (by decide +kernel)
  obtain ⟨elements, removed, different⟩ := of_decide_eq_true facts
  have outside : DeclaredOutside (scan "<?xml?><a> <b/><c> <d/>x</c> <e/></a>").tokens := by
    decide +kernel
  have apart : d.BlanksApartAnywhere := removalOrderHasNoEffect.1 _ d read outside []
  have same : [3, 2, 8, 5, 3, 0].Perm [8, 0, 5, 3, 3, 2] := by decide
  exact ⟨d, read, apart, removed, different,
    (removalOrderHasNoEffect.2 d (.parsed read) apart _ _ elements same).1⟩

end EdmxPruning
