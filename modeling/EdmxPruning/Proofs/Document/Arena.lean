import EdmxPruning.Document.Xml
import EdmxPruning.Proofs.Document.Layout
import EdmxPruning.Proofs.Markup.Nesting

/-! The nodes of a document form a tree, in every document that is read and then cut down by
removals. The links between nodes never change; what changes is which nodes are cut. -/
namespace EdmxPruning
open Markup

namespace Document

def originalParent? (d : Document) (id : NodeId) : Option NodeId := d.nodes[id]?.bind Node.parent

def originalChildren (d : Document) (id : NodeId) : List NodeId :=
  (d.nodes[id]?.map Node.children).getD []

theorem forestWithinCons (d : Document) (depth : Nat) (id : NodeId) (rest : List NodeId) :
    d.forestWithin (depth + 1) (id :: rest) = match d.content? id with
      | some (.element tag _) =>
          .element tag (d.forestWithin depth (d.children id)) (d.forestWithin (depth + 1) rest)
      | some (.leaf l) => .leaf l (d.forestWithin (depth + 1) rest)
      | none => d.forestWithin (depth + 1) rest := rfl

structure Arena (d : Document) : Prop where
  linked : ∀ p c : Nat, d.originalParent? c = some p ↔ c ∈ d.originalChildren p
  later : ∀ p c : Nat, c ∈ d.originalChildren p → p < c
  ascending : ∀ p : Nat, (d.originalChildren p).Pairwise (fun a b : Nat => a < b)
  parents : ∀ p : Nat, d.originalChildren p ≠ [] → d.isElement p = true
  topLevel : ∀ id : Nat, id ∈ d.topLevel ↔ id < d.nodes.size ∧ d.originalParent? id = none
  topAscending : d.topLevel.Pairwise (fun a b : Nat => a < b)
  rootOnTop : d.root ∈ d.topLevel
  rootElement : d.isElement d.root = true
  rootOnly : ∀ id ∈ d.topLevel, d.isElement id = true → id = d.root
  cutBelow : ∀ id : Nat, d.isCut id = true → ∃ p, d.originalParent? id = some p

end Document

namespace Markup.Forest

theorem rootElementRoot {f : Forest} {first id : Nat} (h : f.rootElement? first = some id) :
    id ∈ f.roots first := by
  induction f generalizing first with
  | nil => cases h
  | leaf l rest ih => exact List.mem_cons_of_mem _ (ih h)
  | element tag children rest => cases h; exact List.mem_cons_self

variable {nodes : Array Node} {enclosing : List Tag} {parent : Option NodeId}

theorem standsRootElement {first id : Nat} {f : Forest}
    (stands : f.Stands nodes enclosing parent first) (h : f.rootElement? first = some id) :
    ∃ tag uri kin children, nodes[id]? = some ⟨.element tag uri, kin, children⟩ := by
  induction f generalizing first with
  | nil => cases h
  | leaf l rest ih => exact ih stands.2 h
  | element tag children rest => cases h; exact ⟨_, _, _, _, stands.1⟩

theorem standsLeaves {first id : Nat} {f : Forest} (stands : f.Stands nodes enclosing parent first)
    (noElements : f.topElements = 0) (h : id ∈ f.roots first) :
    ∃ l kin, nodes[id]? = some ⟨.leaf l, kin, []⟩ := by
  induction f generalizing first with
  | nil => cases h
  | leaf l rest ih =>
    rcases List.mem_cons.mp h with same | later
    · subst same; exact ⟨_, _, stands.1⟩
    · exact ih stands.2 noElements later
  | element tag children rest => cases noElements

theorem rootElementOnly {first id : Nat} {f : Forest}
    (stands : f.Stands nodes enclosing parent first) (one : f.topElements ≤ 1)
    (h : id ∈ f.roots first) {tag : Tag} {uri : Option String} {kin : Option NodeId}
    {below : List NodeId} (found : nodes[id]? = some ⟨.element tag uri, kin, below⟩) :
    f.rootElement? first = some id := by
  induction f generalizing first with
  | nil => cases h
  | leaf l rest ih =>
    rcases List.mem_cons.mp h with same | later
    · subst same
      cases stands.1.symm.trans found
    · exact ih stands.2 one later
  | element own children rest _ ih =>
    rcases List.mem_cons.mp h with same | later
    · rw [same]; rfl
    · have none : rest.topElements = 0 := by simp only [topElements] at one; omega
      obtain ⟨l, _, leaf⟩ := standsLeaves stands.2.2 none later
      cases leaf.symm.trans found

end Markup.Forest

namespace Document

theorem ofForestParts {f : Forest} {d : Document} (ok : ofForest? f = some d) :
    f.rootElement? 0 = some d.root ∧ d.nodes = f.number [] none #[] ∧ d.topLevel = f.roots 0 ∧
      d.cuts = Array.replicate d.nodes.size false := by
  unfold ofForest? at ok
  simp only [Option.map_eq_some_iff] at ok
  obtain ⟨root, found, same⟩ := ok
  subst same
  exact ⟨found, rfl, rfl, rfl⟩

theorem ofForestStands {f : Forest} {d : Document} (ok : ofForest? f = some d) :
    f.Stands d.nodes [] none 0 ∧ d.nodes.size = f.after 0 := by
  obtain ⟨_, nodes, _, _⟩ := ofForestParts ok
  rw [nodes]
  exact ⟨Forest.numberStands f [] none #[] _ fun _ _ => rfl, Forest.numberSize f [] none #[]⟩

theorem ofForestUncut {f : Forest} {d : Document} (ok : ofForest? f = some d) (id : Nat) :
    d.isCut id = false := by
  obtain ⟨_, _, _, cuts⟩ := ofForestParts ok
  unfold isCut
  rw [cuts]
  simp only [Array.getD_eq_getD_getElem?, Array.getElem?_replicate]
  split <;> rfl

theorem isElementAt {d : Document} {id : Nat} {node : Node} (found : d.nodes[id]? = some node) :
    d.isElement id = true ↔ ∃ tag uri, node.content = .element tag uri := by
  unfold isElement tag? content?
  rw [found]
  cases content : node.content with
  | element tag uri => simp [content]
  | leaf l => simp [content]

theorem memOriginalChildren {d : Document} {p c : Nat} :
    c ∈ d.originalChildren p ↔ ∃ node, d.nodes[p]? = some node ∧ c ∈ node.children := by
  unfold originalChildren
  cases d.nodes[p]? <;> simp

section Numbered

variable {f : Forest} {d : Document} (ok : ofForest? f = some d)
include ok

/- A node of a document that was numbered from a forest is where the forest has it. -/
theorem linkedOfForest {id : Nat} {node : Node} (found : d.nodes[id]? = some node) :
    Forest.Linked d.nodes id node ∧ ((node.parent = none ∧ id ∈ d.topLevel) ∨
      ∃ above, node.parent = some above ∧ id ∈ d.originalChildren above) := by
  obtain ⟨_, _, top, _⟩ := ofForestParts ok
  obtain ⟨stands, size⟩ := ofForestStands ok
  have below : id < d.nodes.size := (Array.getElem?_eq_some_iff.mp found).1
  obtain ⟨other, same, linked, kin⟩ :=
    Forest.standsLinked stands (Nat.zero_le id) (size ▸ below)
  cases found.symm.trans same
  refine ⟨linked, ?_⟩
  rcases kin with root | ⟨above, host, parent, there, inside⟩
  · rw [top]
    exact .inl root
  · exact .inr ⟨above, parent, by simpa [originalChildren, there] using inside⟩

theorem childOfForest {p c : Nat} (h : c ∈ d.originalChildren p) :
    p < c ∧ d.originalParent? c = some p := by
  obtain ⟨node, found, inside⟩ := memOriginalChildren.mp h
  exact (linkedOfForest ok found).1.children c inside

theorem parentOfForest {p c : Nat} (h : d.originalParent? c = some p) :
    c ∈ d.originalChildren p := by
  obtain ⟨node, found, own⟩ := Option.bind_eq_some_iff.mp h
  rcases (linkedOfForest ok found).2 with ⟨none, _⟩ | ⟨above, parent, inside⟩
  · cases own.symm.trans none
  · cases own.symm.trans parent
    exact inside

theorem childrenAscending (p : Nat) :
    (d.originalChildren p).Pairwise (fun a b : Nat => a < b) := by
  unfold originalChildren
  cases found : d.nodes[p]? with
  | none => exact .nil
  | some node => exact (linkedOfForest ok found).1.ascending

theorem onlyElementsHold {p : Nat} (h : d.originalChildren p ≠ []) : d.isElement p = true := by
  obtain ⟨c, child⟩ := List.exists_mem_of_ne_nil _ h
  obtain ⟨node, found, inside⟩ := memOriginalChildren.mp child
  have filled : node.children ≠ [] := List.ne_nil_of_mem inside
  exact (isElementAt found).mpr ((linkedOfForest ok found).1.element filled)

theorem topOfForest (id : Nat) :
    id ∈ d.topLevel ↔ id < d.nodes.size ∧ d.originalParent? id = none := by
  obtain ⟨_, _, top, _⟩ := ofForestParts ok
  obtain ⟨stands, size⟩ := ofForestStands ok
  constructor
  · intro listed
    rw [top] at listed
    obtain ⟨node, found, none⟩ := Forest.standsRoot stands listed
    exact ⟨size ▸ (Forest.rootsWithin listed).2, by simp [originalParent?, found, none]⟩
  · intro given
    obtain ⟨below, none⟩ := given
    have found : d.nodes[id]? = some d.nodes[id] := Array.getElem?_eq_getElem below
    rcases (linkedOfForest ok found).2 with ⟨_, listed⟩ | ⟨above, parent, _⟩
    · exact listed
    · simp [originalParent?, found, parent] at none

theorem arenaOfForest (one : f.topElements ≤ 1) : d.Arena := by
  obtain ⟨root, _, top, _⟩ := ofForestParts ok
  obtain ⟨stands, _⟩ := ofForestStands ok
  have rootElement : d.isElement d.root = true := by
    obtain ⟨tag, uri, kin, children, found⟩ := Forest.standsRootElement stands root
    exact (isElementAt found).mpr ⟨tag, uri, rfl⟩
  have rootOnly : ∀ id ∈ d.topLevel, d.isElement id = true → id = d.root := by
    intro id listed element
    rw [top] at listed
    obtain ⟨node, found, _⟩ := Forest.standsRoot stands listed
    obtain ⟨tag, uri, content⟩ := (isElementAt found).mp element
    obtain ⟨own, kin, below⟩ := node
    cases content
    exact Option.some.inj ((Forest.rootElementOnly stands one listed found).symm.trans root)
  exact {
    linked := fun p c => ⟨parentOfForest ok, fun h => (childOfForest ok h).2⟩
    later := fun p c h => (childOfForest ok h).1
    ascending := childrenAscending ok
    parents := fun p h => onlyElementsHold ok h
    topLevel := topOfForest ok
    topAscending := top ▸ Forest.rootsAscending f 0
    rootOnTop := top ▸ Forest.rootElementRoot root
    rootElement := rootElement
    rootOnly := rootOnly
    cutBelow := fun id h => by rw [ofForestUncut ok] at h; cases h }

end Numbered
end Document
end EdmxPruning
