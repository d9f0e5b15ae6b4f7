import EdmxPruning.Proofs.Document.Order
import EdmxPruning.Proofs.Linked.Removal

/-! Links form a tree, whatever is removed and in whatever order. The parents and the lists of children
say the same, and as children come after their parents, every walk along the links comes to an end. -/
namespace EdmxPruning
open Markup

namespace Linked

structure IsTree (l : Linked) : Prop where
  linked : ∀ p c : NodeId, l.parent? c = some p ↔ c ∈ l.children p
  once : ∀ p c : NodeId, c ∈ l.children p → (l.children p).count c = 1
  ascending : ∀ p : NodeId, (l.children p).Pairwise fun a b : Nat => a < b
  later : ∀ p c : Nat, c ∈ l.children p → p < c
  rootElement : l.isElement l.root = true
  rootParent : l.parent? l.root = none
  rootOnly : l.topLevel.filter l.isElement = [l.root]

inductive Upwards (l : Linked) : NodeId → List NodeId → Prop where
  | top {id} (own : l.parent? id = none) : Upwards l id []
  | above {id parent path} (own : l.parent? id = some parent) (more : Upwards l parent path) :
      Upwards l id (parent :: path)

inductive Downwards (l : Linked) : List NodeId → List NodeId → Prop where
  | done : Downwards l [] []
  | element {id stack met} (own : l.isElement id = true) (more : Downwards l (l.children id ++ stack) met) :
      Downwards l (id :: stack) (id :: met)
  | other {id stack met} (own : l.isElement id = false) (more : Downwards l stack met) :
      Downwards l (id :: stack) met

inductive Writes (l : Linked) : List NodeId → Forest → Prop where
  | done : Writes l [] .nil
  | element {id ids tag uri inside rest} (own : l.content? id = some (.element tag uri))
      (children : Writes l (l.children id) inside) (more : Writes l ids rest) :
      Writes l (id :: ids) (.element tag inside rest)
  | leaf {id ids leaf rest} (own : l.content? id = some (.leaf leaf)) (more : Writes l ids rest) :
      Writes l (id :: ids) (.leaf leaf rest)
  | missing {id ids rest} (own : l.content? id = none) (more : Writes l ids rest) :
      Writes l (id :: ids) rest

structure WalksEnd (l : Linked) : Prop where
  upwards : ∀ id, ∃ path, l.Upwards id path
  downwards : ∀ id, ∃ met, l.Downwards (l.children id) met
  writing : ∃ forest, l.Writes l.topLevel forest

theorem prepended {P : List NodeId → Prop} {ids stack : List NodeId}
    (each : ∀ id ∈ ids, ∀ stack, P stack → P (id :: stack)) (base : P stack) : P (ids ++ stack) := by
  induction ids with
  | nil => exact base
  | cons id rest ih =>
    have further : P (rest ++ stack) := ih fun c listed => each c (List.mem_cons_of_mem id listed)
    exact each id List.mem_cons_self _ further

section Walking

variable {l : Linked} (tree : l.IsTree)
include tree

theorem IsTree.climbs (id : Nat) : ∃ path, l.Upwards id path := by
  induction id using Nat.strongRecOn with
  | ind id ih =>
    cases own : l.parent? id with
    | none => exact ⟨[], .top own⟩
    | some parent =>
      obtain ⟨path, more⟩ := ih parent (tree.later parent id ((tree.linked parent id).mp own))
      exact ⟨parent :: path, .above own more⟩

/- Children come after their parent, so what passes from them to it holds of all, from the last node on. -/
theorem IsTree.fromBelow {motive : NodeId → Prop}
    (pass : ∀ id, (∀ c ∈ l.children id, motive c) → motive id) (id : NodeId) : motive id := by
  suffices bounded : ∀ room id : Nat, l.nodes.size ≤ id + room → motive id from
    bounded l.nodes.size id (Nat.le_add_left _ id)
  intro room
  induction room with
  | zero =>
    intro id beyond
    have missing : l.nodes[id]? = none := Array.getElem?_eq_none beyond
    have childless : l.children id = [] := by simp [children, missing]
    exact pass id fun c listed => absurd (childless ▸ listed) List.not_mem_nil
  | succ room ih =>
    intro id reach
    refine pass id fun c listed => ih c ?_
    have next := tree.later id c listed
    omega

theorem IsTree.visits (id : NodeId) :
    ∀ stack, (∃ met, l.Downwards stack met) → ∃ met, l.Downwards (id :: stack) met := by
  induction id using tree.fromBelow with
  | pass id below =>
    intro stack ⟨met, walked⟩
    cases element : l.isElement id with
    | false => exact ⟨met, .other element walked⟩
    | true =>
      obtain ⟨more, further⟩ := prepended below ⟨met, walked⟩
      exact ⟨id :: more, .element element further⟩

theorem IsTree.shows (id : NodeId) :
    ∀ ids, (∃ rest, l.Writes ids rest) → ∃ forest, l.Writes (id :: ids) forest := by
  induction id using tree.fromBelow with
  | pass id below =>
    intro ids ⟨rest, written⟩
    cases own : l.content? id with
    | none => exact ⟨rest, .missing own written⟩
    | some content =>
      cases content with
      | leaf leaf => exact ⟨.leaf leaf rest, .leaf own written⟩
      | element tag uri =>
        obtain ⟨inside, children⟩ := prepended below ⟨.nil, .done⟩
        rw [List.append_nil] at children
        exact ⟨.element tag inside rest, .element own children written⟩

theorem IsTree.walksEnd : l.WalksEnd where
  upwards := tree.climbs
  downwards id := by
    rw [← List.append_nil (l.children id)]
    exact prepended (fun c _ => tree.visits c) ⟨[], .done⟩
  writing := by
    rw [← List.append_nil l.topLevel]
    exact prepended (fun id _ => tree.shows id) ⟨.nil, .done⟩

end Walking

theorem treeLinked {d : Document} (arena : d.Arena) : d.linked.IsTree := by
  have children := Document.linkedChildren arena
  refine ⟨fun p c => ?_, fun p c listed => ?_, fun p => ?_, fun p c listed => ?_, ?_, ?_, ?_⟩
  · rw [Document.linkedParent, children]
    exact arena.memChildren.symm
  · rw [children] at listed ⊢
    exact List.count_eq_one_of_mem (arena.childrenNodup p) listed
  · rw [children]
    exact (arena.ascending p).filter _
  · rw [children] at listed
    exact arena.parentBefore (arena.memChildren.mp listed)
  · exact (Document.linkedElement d d.root).trans arena.rootElement
  · exact (Document.linkedParent d d.root).trans arena.rootParent
  · have same : d.linked.isElement = d.isElement := funext (Document.linkedElement d)
    rw [same]
    exact arena.rootAlone

theorem Reached.isTree {l : Linked} (reached : l.Reached) : l.IsTree := by
  obtain ⟨d, before, rfl⟩ := reached.document
  exact treeLinked before.arena

theorem Reached.removeKeeps {l : Linked} (reached : l.Reached) (id : NodeId) :
    (l.remove id).2.topLevel = l.topLevel ∧ (l.remove id).2.root = l.root ∧
      (l.remove id).2.defaultNamespace = l.defaultNamespace := by
  obtain ⟨d, before, rfl⟩ := reached.document
  rw [Document.removeLinked before.arena]
  cases tried : d.remove? id with
  | none => exact ⟨rfl, rfl, rfl⟩
  | some left =>
    have lose := Document.removeLoses before.arena tried
    exact ⟨lose.topLevel, lose.root, lose.defaultNamespace⟩

theorem Reached.removeEachKeeps {l : Linked} (reached : l.Reached) (ids : List NodeId) :
    (l.removeEach ids).topLevel = l.topLevel ∧ (l.removeEach ids).root = l.root ∧
      (l.removeEach ids).defaultNamespace = l.defaultNamespace := by
  induction ids generalizing l with
  | nil => exact ⟨rfl, rfl, rfl⟩
  | cons id rest ih =>
    obtain ⟨top, root, default⟩ := reached.removeKeeps id
    obtain ⟨topToo, rootToo, defaultToo⟩ := ih (reached.removed id)
    exact ⟨topToo.trans top, rootToo.trans root, defaultToo.trans default⟩

end Linked

/- A sequence of calls with any numbers: of nodes that are attached or not, on top or not there. -/
theorem removalsKeepTheTree {text : String} {l : Linked} (read : Linked.parse text = .ok l)
    (ids : List NodeId) :
    let left := l.removeEach ids
    left.IsTree ∧ left.WalksEnd ∧ left.topLevel = l.topLevel ∧ left.root = l.root ∧
      left.defaultNamespace = l.defaultNamespace := by
  have reached := Linked.Reached.parsed read
  have tree := (reached.each ids).isTree
  exact ⟨tree, tree.walksEnd, reached.removeEachKeeps ids⟩

theorem treeAfterRemovals : ∃ l : Linked,
    Linked.parse "<!--c--><a> <b>x<c/></b>y<e/></a>" = .ok l ∧
    l.children 1 = [2, 3, 6, 7] ∧ (l.removeEach [1, 0, 3, 4, 2, 5, 9]).children 1 = [6, 7] ∧
    (l.removeEach [1, 0, 3, 4, 2, 5, 9]).IsTree := by
  obtain ⟨l, read, facts⟩ := Document.okWith
    (x := Linked.parse "<!--c--><a> <b>x<c/></b>y<e/></a>")
    (p := fun l => decide (l.children 1 = [2, 3, 6, 7] ∧
      (l.removeEach [1, 0, 3, 4, 2, 5, 9]).children 1 = [6, 7])) (by decide +kernel)
  obtain ⟨listed, left⟩ := of_decide_eq_true facts
  exact ⟨l, read, listed, left, (removalsKeepTheTree read _).1⟩

end EdmxPruning
