import EdmxPruning.Proofs.Linked.Building
import EdmxPruning.Proofs.Pruning.Detachment

/-! What a removal does to the links. It finds the node among the children of its parent, takes it and
perhaps the blank before it from there, and leaves them without a parent; it comes to the links of the
document without them. -/
namespace EdmxPruning
open Markup

namespace Document

variable {d left : Document} {id parent : NodeId} {before taken after : List NodeId}

theorem linkedSlot (d : Document) (x : Nat) : d.linked.nodes[x]? = d.nodes[x]?.map fun node =>
    { node with parent := d.parent? x, children := d.children x } := by
  unfold linked
  rw [Array.getElem?_mapIdx]

theorem linkedContent (d : Document) (x : NodeId) : d.linked.content? x = d.content? x := by
  rw [Linked.content?, linkedSlot, Option.map_map]
  rfl

theorem linkedParent (d : Document) (x : NodeId) : d.linked.parent? x = d.parent? x := by
  rw [Linked.parent?, linkedSlot]
  cases found : d.nodes[x]? with
  | none => simp [parent?, found]
  | some node => rfl

theorem linkedElement (d : Document) (x : NodeId) : d.linked.isElement x = d.isElement x := by
  rw [Linked.isElement, linkedContent, isElement, tag?]
  cases d.content? x with
  | none => rfl
  | some content => cases content <;> rfl

theorem linkedBlank (d : Document) (x : NodeId) : d.linked.isBlankText x = d.isBlankText x := by
  rw [Linked.isBlankText, linkedContent, isBlankText]
  cases d.content? x with
  | none => rfl
  | some content => cases content <;> rfl

theorem linkedChildren (arena : d.Arena) (x : NodeId) : d.linked.children x = d.children x := by
  rw [Linked.children, linkedElement, linkedSlot]
  cases element : d.isElement x with
  | false =>
    have none : d.originalChildren x = [] := by
      by_contra some
      rw [arena.parents x some] at element
      cases element
    have children : d.children x = (d.originalChildren x).filter (!d.isCut ·) := rfl
    rw [children, none]
    rfl
  | true =>
    cases found : d.nodes[x]? with
    | none => simp [children, found]
    | some node => rfl

end Document

namespace Linked

theorem detachSlot (l : Linked) (id x : Nat) : (l.detach id).nodes[x]? = l.nodes[x]?.map fun node =>
    { node with parent := if x = id then none else node.parent } := by
  unfold detach
  rw [Array.getElem?_modify]
  by_cases own : id = x
  · simp [own]
  · simp [own, Ne.symm own]

theorem eraseSlot (l : Linked) (p place x : Nat) :
    (l.eraseChild p place).nodes[x]? = l.nodes[x]?.map fun node =>
      { node with children := if x = p then node.children.eraseIdx place else node.children } := by
  unfold eraseChild
  rw [Array.getElem?_modify]
  by_cases own : p = x
  · simp [own]
  · simp [own, Ne.symm own]

theorem placeAt {id : NodeId} {front after : List NodeId} (nodup : (front ++ id :: after).Nodup) :
    (front ++ id :: after).idxOf? id = some front.length := by
  refine List.idxOf?_eq_some_iff.mpr ⟨by simp, by simp, fun place earlier same => ?_⟩
  rw [List.getElem_append_left earlier] at same
  have listed : id ∈ front := same ▸ List.getElem_mem earlier
  obtain ⟨_, _, apart⟩ := List.nodup_append.mp nodup
  exact apart id listed id List.mem_cons_self rfl

theorem leadingLast (l : Linked) (front after : List NodeId) :
    l.leading? (front ++ after) front.length = front.getLast?.filter l.isBlankText := by
  cases front using List.reverseRecOn with
  | nil => rfl
  | append_singleton earlier last =>
    rw [List.length_append, List.length_singleton, leading?, List.getLast?_concat]
    simp

theorem erasedAt (front after : List NodeId) (id : NodeId) :
    (front ++ id :: after).eraseIdx front.length = front ++ after := by
  rw [List.eraseIdx_append_of_length_le (Nat.le_refl _), Nat.sub_self]
  rfl

end Linked

namespace Document

variable {d left : Document} {id parent : NodeId} {before taken after : List NodeId}

section Taken

variable (takes : d.Takes left id parent before taken after) (nodes : left.nodes = d.nodes)
include takes nodes

theorem Takes.linked {l : Linked} (top : l.topLevel = d.topLevel) (root : l.root = d.root)
    (default : l.defaultNamespace = d.defaultNamespace)
    (slots : ∀ x : Nat, l.nodes[x]? = d.nodes[x]?.map fun node =>
      { node with
        parent := if x ∈ id :: taken then none else d.parent? x
        children := if x = parent then before ++ after else d.children x }) : l = left.linked := by
  have same : l.nodes = left.linked.nodes := by
    refine Array.ext_getElem? fun x => (slots x).trans ?_
    have above : left.parent? x = if x ∈ id :: taken then none else d.parent? x := by
      split
      · next gone => exact (takes.detached x gone).2
      · next stays => exact takes.parents x stays
    have below : left.children x = if x = parent then before ++ after else d.children x := by
      split
      · next same => exact same ▸ takes.closed
      · next other => exact takes.children x other
    rw [linkedSlot, nodes, above, below]
  exact Linked.ext same (top.trans takes.topLevel.symm) (root.trans takes.root.symm)
    (default.trans takes.defaultNamespace.symm)

theorem Takes.erases (place : Nat) (alone : taken = []) (here : before.length = place) :
    (d.linked.eraseChild parent place).detach id = left.linked := by
  have closed : (d.children parent).eraseIdx place = before ++ after := by
    rw [takes.stood, alone, List.append_nil, ← here, Linked.erasedAt]
  refine takes.linked nodes rfl rfl rfl fun x => ?_
  rw [Linked.detachSlot, Linked.eraseSlot, linkedSlot, Option.map_map, Option.map_map]
  refine congrArg (Option.map · d.nodes[x]?) (funext fun node => ?_)
  by_cases same : x = parent
  · subst same
    simp only [Function.comp_def, closed, if_pos, alone, List.mem_singleton]
  · simp only [Function.comp_def, if_neg same, alone, List.mem_singleton]

theorem Takes.erasesBlank {blank : NodeId} (place : Nat) (own : taken = [blank])
    (here : before.length + 1 = place) :
    (((d.linked.eraseChild parent place).eraseChild parent (place - 1)).detach id).detach blank =
      left.linked := by
  have closed : ((d.children parent).eraseIdx place).eraseIdx (place - 1) = before ++ after := by
    have split : d.children parent = (before ++ [blank]) ++ id :: after := by rw [takes.stood, own]
    have end_ : (before ++ [blank]).length = place := by simp [here]
    rw [split, ← end_, Linked.erasedAt, end_, ← here, Nat.add_sub_cancel, List.append_assoc,
      List.singleton_append, Linked.erasedAt]
  refine takes.linked nodes rfl rfl rfl fun x => ?_
  rw [Linked.detachSlot, Linked.detachSlot, Linked.eraseSlot, Linked.eraseSlot, linkedSlot]
  simp only [Option.map_map]
  refine congrArg (Option.map · d.nodes[x]?) (funext fun node => ?_)
  have gone : (if x = blank then none else if x = id then none else d.parent? x) =
      if x ∈ id :: taken then none else d.parent? x := by
    by_cases same : x = id <;> simp [same, own]
  by_cases same : x = parent
  · subst same
    simp only [Function.comp_def, closed, if_pos, gone]
  · simp only [Function.comp_def, if_neg same, gone]

end Taken

theorem removeLinked (arena : d.Arena) (id : NodeId) : d.linked.remove id =
    match d.remove? id with
    | none => (false, d.linked)
    | some left => (true, left.linked) := by
  cases tried : d.remove? id with
  | none =>
    have alone := removeNone tried
    simp only [Linked.remove, linkedParent, alone]
  | some left =>
    obtain ⟨parent, before, taken, after, takes⟩ := removeTakes arena tried
    have nodes := (removeLoses arena tried).nodes
    have nodup := arena.childrenNodup parent
    rw [takes.stood] at nodup
    simp only [Linked.remove, linkedParent, takes.above, linkedChildren arena, takes.stood,
      Linked.placeAt nodup, linkedElement, arena.parentElement takes.above, if_pos, Linked.leadingLast]
    rcases takes.leading with ⟨alone, filled⟩ | ⟨blank, own, trims⟩
    · have stays : (before ++ taken).getLast?.filter d.linked.isBlankText = none := by
        rw [alone, List.append_nil, Option.filter_eq_none_iff]
        intro last own blank
        exact filled last own (trimsAway.mpr (linkedBlank d last ▸ blank))
      rw [stays]
      exact congrArg (Prod.mk true) (takes.erases nodes _ alone (by simp [alone]))
    · have goes : (before ++ taken).getLast?.filter d.linked.isBlankText = some blank := by
        rw [own, List.getLast?_concat, Option.filter_some_pos (linkedBlank d blank ▸ trimsAway.mp trims)]
      rw [goes]
      exact congrArg (Prod.mk true) (takes.erasesBlank nodes _ own (by simp [own]))

end Document
namespace Linked

/- The arenas there are: built from a text, and then perhaps edited by removals. -/
inductive Reached : Linked → Prop where
  | parsed {text l} (ok : parse text = .ok l) : Reached l
  | removed {l} (before : Reached l) (id : NodeId) : Reached (l.remove id).2

theorem parsedDocument {text : String} {l : Linked} (ok : parse text = .ok l) :
    ∃ d, Document.parse text = .ok d ∧ l = d.linked := by
  rw [parseLinked] at ok
  cases read : Document.parse text with
  | error e => rw [read] at ok; cases ok
  | ok d =>
    rw [read] at ok
    exact ⟨d, rfl, (Except.ok.inj ok).symm⟩

theorem Reached.document {l : Linked} (reached : l.Reached) : ∃ d : Document, d.Reached ∧ l = d.linked := by
  induction reached with
  | parsed ok =>
    obtain ⟨d, read, same⟩ := parsedDocument ok
    exact ⟨d, .parsed read, same⟩
  | removed _ id ih =>
    obtain ⟨d, before, rfl⟩ := ih
    rw [Document.removeLinked before.arena]
    cases tried : d.remove? id with
    | none => exact ⟨d, before, rfl⟩
    | some left => exact ⟨left, .removed before tried, rfl⟩

theorem Reached.each {l : Linked} (reached : l.Reached) (ids : List NodeId) :
    (l.removeEach ids).Reached := by
  induction ids generalizing l with
  | nil => exact reached
  | cons id rest ih => exact ih (reached.removed id)

def TrimsAway (l : Linked) (id : NodeId) : Prop :=
  ∃ text, l.content? id = some (.leaf (.text text)) ∧ Text.trim text.toList = []

/- An arena and what is left of it when a node is taken from between its siblings. -/
structure Takes (l left : Linked) (id parent : NodeId) (before taken after : List NodeId) : Prop where
  above : l.parent? id = some parent
  stood : l.children parent = before ++ taken ++ id :: after
  closed : left.children parent = before ++ after
  leading : taken = [] ∧ (∀ last ∈ before.getLast?, ¬ l.TrimsAway last) ∨
    ∃ blank, taken = [blank] ∧ l.TrimsAway blank
  detached : ∀ x ∈ id :: taken, l.parent? x = some parent ∧ left.parent? x = none
  parents : ∀ x, x ∉ id :: taken → left.parent? x = l.parent? x
  children : ∀ p, p ≠ parent → left.children p = l.children p
  contents : ∀ x, left.content? x = l.content? x
  topLevel : left.topLevel = l.topLevel
  root : left.root = l.root
  defaultNamespace : left.defaultNamespace = l.defaultNamespace

theorem takesLinked {d left : Document} {id parent : NodeId} {before taken after : List NodeId}
    (arena : d.Arena) (arenaLeft : left.Arena) (takes : d.Takes left id parent before taken after) :
    d.linked.Takes left.linked id parent before taken after where
  above := by rw [Document.linkedParent, takes.above]
  stood := by rw [Document.linkedChildren arena, takes.stood]
  closed := by rw [Document.linkedChildren arenaLeft, takes.closed]
  leading := by
    simp only [TrimsAway, Document.linkedContent]
    exact takes.leading
  detached x gone := by
    rw [Document.linkedParent, Document.linkedParent]
    exact takes.detached x gone
  parents x stays := by rw [Document.linkedParent, Document.linkedParent, takes.parents x stays]
  children p other := by
    rw [Document.linkedChildren arenaLeft, Document.linkedChildren arena, takes.children p other]
  contents x := by rw [Document.linkedContent, Document.linkedContent, takes.contents]
  topLevel := takes.topLevel
  root := takes.root
  defaultNamespace := takes.defaultNamespace

theorem Reached.detachedEach {l : Linked} (reached : l.Reached) {id : NodeId} (alone : l.parent? id = none)
    (ids : List NodeId) : (l.removeEach ids).parent? id = none := by
  induction ids generalizing l with
  | nil => exact alone
  | cons next rest ih =>
    refine ih (reached.removed next) ?_
    obtain ⟨d, before, rfl⟩ := reached.document
    rw [Document.linkedParent] at alone
    show (d.linked.remove next).2.parent? id = none
    rw [Document.removeLinked before.arena]
    cases tried : d.remove? next with
    | none => rw [Document.linkedParent, alone]
    | some left =>
      rw [Document.linkedParent]
      exact (Document.removeLoses before.arena tried).detachedAfter alone

theorem removeAlone {l : Linked} {id : NodeId} (alone : l.parent? id = none) :
    l.remove id = (false, l) := by
  rw [remove, alone]

end Linked

theorem removalIsExact {l : Linked} (reached : l.Reached) (id : NodeId) :
    ((l.remove id).1 = true ↔ ∃ parent, l.parent? id = some parent) ∧
    ((l.remove id).1 = false → (l.remove id).2 = l) ∧
    ((l.remove id).1 = true →
      (∃ parent before taken after, l.Takes (l.remove id).2 id parent before taken after) ∧
      ∀ ids, (((l.remove id).2.removeEach ids).remove id).1 = false) := by
  have after := reached.removed id
  obtain ⟨d, before, rfl⟩ := reached.document
  have arena := before.arena
  rw [Document.linkedParent]
  have removes := Document.removeLinked arena id
  cases tried : d.remove? id with
  | none =>
    rw [tried] at removes
    rw [removes, Document.removeNone tried]
    exact ⟨⟨nofun, nofun⟩, fun _ => rfl, nofun⟩
  | some left =>
    obtain ⟨parent, earlier, taken, later, takes⟩ := Document.removeTakes arena tried
    have arenaLeft := (Document.removeLoses arena tried).arena arena
    rw [tried] at removes
    rw [removes] at after ⊢
    refine ⟨⟨fun _ => ⟨parent, takes.above⟩, fun _ => rfl⟩, nofun, fun _ =>
      ⟨⟨parent, earlier, taken, later, Linked.takesLinked arena arenaLeft takes⟩, fun ids => ?_⟩⟩
    have alone : left.linked.parent? id = none :=
      (Document.linkedParent left id).trans (takes.detached id List.mem_cons_self).2
    rw [Linked.removeAlone (after.detachedEach alone ids)]

theorem blankGoesAlong : ∃ l : Linked, Linked.parse "<a>x <b/> <c/><d/></a>" = .ok l ∧
    l.children 0 = [1, 2, 3, 4, 5] ∧ (l.remove 4).2.children 0 = [1, 2, 5] ∧
    (∃ parent before taken after, l.Takes (l.remove 4).2 4 parent before taken after) ∧
    ∀ ids, (((l.remove 4).2.removeEach ids).remove 4).1 = false := by
  obtain ⟨l, read, facts⟩ := Document.okWith (x := Linked.parse "<a>x <b/> <c/><d/></a>")
    (p := fun l => decide (l.children 0 = [1, 2, 3, 4, 5] ∧ (l.remove 4).1 = true ∧
      (l.remove 4).2.children 0 = [1, 2, 5])) (by decide +kernel)
  obtain ⟨listed, removed, left⟩ := of_decide_eq_true facts
  exact ⟨l, read, listed, left, (removalIsExact (.parsed read) 4).2.2 removed⟩

end EdmxPruning
