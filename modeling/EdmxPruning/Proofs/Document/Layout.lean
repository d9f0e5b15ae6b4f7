import EdmxPruning.Document.Numbering

/-! How a numbered forest stands among the nodes of a document: every node at the place of its
number, linked to its parent and to its children. -/
namespace EdmxPruning
open Markup

namespace Markup.Forest

/- A forest stands in a list of nodes, from a given number on, below a given parent. -/
def Stands (nodes : Array Node) : List Tag → Option NodeId → NodeId → Forest → Prop
  | _, _, _, .nil => True
  | enclosing, parent, first, .leaf l rest =>
      nodes[first]? = some ⟨.leaf l, parent, []⟩ ∧ rest.Stands nodes enclosing parent (first + 1)
  | enclosing, parent, first, .element tag children rest =>
      nodes[first]? = some ⟨.element tag (Document.resolve? tag.qualifier (tag :: enclosing)), parent,
        children.roots (first + 1)⟩ ∧
      children.Stands nodes (tag :: enclosing) (some first) (first + 1) ∧
      rest.Stands nodes enclosing parent (children.after (first + 1))

theorem afterGrows (f : Forest) (first : Nat) : first ≤ f.after first := by
  induction f generalizing first with
  | nil => exact Nat.le_refl _
  | leaf l rest ih => exact Nat.le_of_succ_le (ih (first + 1))
  | element tag children rest ihc ihr =>
    exact Nat.le_of_succ_le (Nat.le_trans (ihc (first + 1)) (ihr _))

theorem numberSize (f : Forest) (enclosing : List Tag) (parent : Option NodeId)
    (nodes : Array Node) : (f.number enclosing parent nodes).size = f.after nodes.size := by
  induction f generalizing enclosing parent nodes with
  | nil => rfl
  | leaf l rest ih => simp only [number, ih, after, Array.size_push]
  | element tag children rest ihc ihr => simp only [number, ihr, ihc, after, Array.size_push]

theorem numberKeeps (f : Forest) (enclosing : List Tag) (parent : Option NodeId)
    (nodes : Array Node) {id : Nat} (old : id < nodes.size) :
    (f.number enclosing parent nodes)[id]? = nodes[id]? := by
  have pushed (node : Node) : (nodes.push node)[id]? = nodes[id]? := by
    rw [Array.getElem?_push, if_neg (by omega)]
  induction f generalizing enclosing parent nodes with
  | nil => rfl
  | leaf l rest ih =>
    rw [number, ih _ _ _ (by simp; omega)]
    · exact pushed _
    · intro node
      rw [Array.getElem?_push, if_neg (by simp; omega)]
  | element tag children rest ihc ihr =>
    have grown := afterGrows children (nodes.size + 1)
    rw [number, ihr, ihc]
    · exact pushed _
    · simp; omega
    · intro node
      rw [Array.getElem?_push, if_neg (by simp; omega)]
    · rw [numberSize]; simp; omega
    · intro node
      rw [Array.getElem?_push, if_neg (by rw [numberSize]; simp; omega)]

theorem numberStands (f : Forest) (enclosing : List Tag) (parent : Option NodeId)
    (nodes final : Array Node)
    (agree : ∀ id : Nat, id < (f.number enclosing parent nodes).size →
      final[id]? = (f.number enclosing parent nodes)[id]?) :
    f.Stands final enclosing parent nodes.size := by
  induction f generalizing enclosing parent nodes with
  | nil => trivial
  | leaf l rest ih =>
    have grown := afterGrows rest (nodes.size + 1)
    have later := ih enclosing parent (nodes.push ⟨.leaf l, parent, []⟩) agree
    rw [Array.size_push] at later
    refine ⟨?_, later⟩
    rw [agree nodes.size (by rw [numberSize]; exact grown), number, numberKeeps _ _ _ _ (by simp)]
    simp
  | element tag children rest ihc ihr =>
    have grown := afterGrows children (nodes.size + 1)
    have grownMore := afterGrows rest (children.after (nodes.size + 1))
    rw [number] at agree
    have later := ihr _ _ _ agree
    rw [numberSize, Array.size_push] at later
    rw [numberSize, numberSize, Array.size_push] at agree
    refine ⟨?_, ?_, later⟩
    · rw [agree nodes.size (by omega), numberKeeps _ _ _ _ (by rw [numberSize]; simp; omega),
        numberKeeps _ _ _ _ (by simp)]
      simp
    · have inner := ihc (tag :: enclosing) (some nodes.size) (nodes.push _) fun id below => by
        rw [numberSize, Array.size_push] at below
        rw [agree id (by omega), numberKeeps _ _ _ _ (by rw [numberSize, Array.size_push]; exact below)]
      rw [Array.size_push] at inner
      exact inner

theorem rootsWithin {f : Forest} {first id : Nat} (h : id ∈ f.roots first) :
    first ≤ id ∧ id < f.after first := by
  induction f generalizing first with
  | nil => cases h
  | leaf l rest ih =>
    have grown := afterGrows rest (first + 1)
    rcases List.mem_cons.mp h with same | later
    · subst same; exact ⟨Nat.le_refl _, grown⟩
    · obtain ⟨low, high⟩ := ih later
      exact ⟨by omega, high⟩
  | element tag children rest _ ih =>
    have grown := afterGrows children (first + 1)
    have grownMore := afterGrows rest (children.after (first + 1))
    rcases List.mem_cons.mp h with same | later
    · subst same; exact ⟨Nat.le_refl _, Nat.le_trans grown grownMore⟩
    · obtain ⟨low, high⟩ := ih later
      exact ⟨by omega, high⟩

theorem rootsAscending (f : Forest) (first : Nat) :
    (f.roots first).Pairwise (fun a b : Nat => a < b) := by
  induction f generalizing first with
  | nil => exact .nil
  | leaf l rest ih =>
    exact List.pairwise_cons.mpr ⟨fun id h => (rootsWithin h).1, ih (first + 1)⟩
  | element tag children rest _ ih =>
    have grown := afterGrows children (first + 1)
    exact List.pairwise_cons.mpr ⟨fun id h => Nat.le_trans grown (rootsWithin h).1, ih _⟩

structure Linked (nodes : Array Node) (id : Nat) (node : Node) : Prop where
  children : ∀ child : Nat, child ∈ node.children →
    id < child ∧ nodes[child]?.bind Node.parent = some id
  ascending : node.children.Pairwise (fun a b : Nat => a < b)
  element : node.children ≠ [] → ∃ tag uri, node.content = .element tag uri

theorem standsRoot {nodes : Array Node} {enclosing : List Tag} {parent : Option NodeId} {first : Nat}
    {f : Forest} (stands : f.Stands nodes enclosing parent first) {id : Nat}
    (h : id ∈ f.roots first) : ∃ node, nodes[id]? = some node ∧ node.parent = parent := by
  induction f generalizing first with
  | nil => cases h
  | leaf l rest ih =>
    rcases List.mem_cons.mp h with same | later
    · subst same; exact ⟨_, stands.1, rfl⟩
    · exact ih stands.2 later
  | element tag children rest _ ih =>
    rcases List.mem_cons.mp h with same | later
    · subst same; exact ⟨_, stands.1, rfl⟩
    · exact ih stands.2.2 later

theorem standsLinked {nodes : Array Node} {enclosing : List Tag} {parent : Option NodeId}
    {first : Nat} {f : Forest} (stands : f.Stands nodes enclosing parent first) {id : Nat}
    (low : first ≤ id) (high : id < f.after first) :
    ∃ node, nodes[id]? = some node ∧ Linked nodes id node ∧
      ((node.parent = parent ∧ id ∈ f.roots first) ∨
        ∃ above host, node.parent = some above ∧ nodes[above]? = some host ∧
          id ∈ host.children) := by
  induction f generalizing enclosing parent first with
  | nil => exact absurd high (Nat.not_lt.mpr low)
  | leaf l rest ih =>
    by_cases same : id = first
    · subst same
      exact ⟨_, stands.1, ⟨by simp, .nil, by simp⟩, .inl ⟨rfl, List.mem_cons_self⟩⟩
    · obtain ⟨node, found, linked, kin⟩ := ih stands.2 (by omega) high
      refine ⟨node, found, linked, kin.imp_left fun ⟨own, root⟩ => ⟨own, ?_⟩⟩
      exact List.mem_cons_of_mem _ root
  | element tag children rest ihc ihr =>
    obtain ⟨here, inner, later⟩ := stands
    by_cases same : id = first
    · subst same
      refine ⟨_, here, ⟨fun child h => ?_, rootsAscending _ _, fun _ => ⟨_, _, rfl⟩⟩,
        .inl ⟨rfl, List.mem_cons_self⟩⟩
      obtain ⟨node, found, own⟩ := standsRoot inner h
      exact ⟨(rootsWithin h).1, by simp [found, own]⟩
    · by_cases inside : id < children.after (first + 1)
      · obtain ⟨node, found, linked, kin⟩ := ihc inner (by omega) inside
        refine ⟨node, found, linked, .inr ?_⟩
        rcases kin with ⟨own, root⟩ | deeper
        · exact ⟨first, _, own, here, root⟩
        · exact deeper
      · obtain ⟨node, found, linked, kin⟩ := ihr later (by omega) high
        refine ⟨node, found, linked, kin.imp_left fun ⟨own, root⟩ => ⟨own, ?_⟩⟩
        exact List.mem_cons_of_mem _ root

end Markup.Forest
end EdmxPruning
