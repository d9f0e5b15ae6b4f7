import EdmxPruning.Navigation.Graph
import EdmxPruning.Proofs.Document.Removal

/-! Documents that differ only in what pruning does not look at. They have the same shape and their
references shorten to the same names; searches, indexing and removals cannot tell them apart. -/
namespace EdmxPruning
open Markup

namespace Document

def referenceKeys : List String := ["Name", "Type", "EntityType", "Relationship"]

def returnType? (d : Document) (id : NodeId) : Option ShortName :=
  (d.attribute? id "ReturnType").map ShortName.ofReturnType

/- Leaves may differ as long as the same texts are blank, tags as long as their names agree and what
the five references in them shorten to. -/
structure Alike (a b : Document) : Prop where
  size : a.nodes.size = b.nodes.size
  root : a.root = b.root
  defaultNamespace : a.defaultNamespace = b.defaultNamespace
  parents : ∀ id, a.parent? id = b.parent? id
  children : ∀ id, a.children id = b.children id
  names : ∀ id, (a.tag? id).map Tag.name = (b.tag? id).map Tag.name
  namespaces : ∀ id, a.namespace? id = b.namespace? id
  blanks : ∀ id, a.isBlankText id = b.isBlankText id
  references : ∀ id, ∀ key ∈ referenceKeys, a.reference? id key = b.reference? id key
  returns : ∀ id, a.returnType? id = b.returnType? id

section Beyond

variable {d : Document} {id : Nat} (beyond : d.nodes.size ≤ id)
include beyond

theorem contentBeyond : d.content? id = none := by
  unfold content?
  rw [Array.getElem?_eq_none beyond, Option.map_none]

theorem tagBeyond : d.tag? id = none := by unfold tag?; rw [contentBeyond beyond]

theorem attributeBeyond (key : String) : d.attribute? id key = none := by
  unfold attribute?
  rw [tagBeyond beyond]
  rfl

theorem parentBeyond : d.parent? id = none := by
  unfold parent?
  rw [Array.getElem?_eq_none beyond, Option.bind_none, ite_self]

theorem childrenBeyond : d.children id = [] := by
  unfold children
  rw [Array.getElem?_eq_none beyond]
  rfl

theorem namespaceBeyond : d.namespace? id = none := by
  unfold namespace?
  rw [contentBeyond beyond]

theorem blankBeyond : d.isBlankText id = false := by
  unfold isBlankText
  rw [contentBeyond beyond]

end Beyond

def AlikeAt (a b : Document) (id : NodeId) : Prop :=
  a.parent? id = b.parent? id ∧ a.children id = b.children id ∧
    (a.tag? id).map Tag.name = (b.tag? id).map Tag.name ∧ a.namespace? id = b.namespace? id ∧
    a.isBlankText id = b.isBlankText id ∧
    (∀ key ∈ referenceKeys, a.reference? id key = b.reference? id key) ∧
    a.returnType? id = b.returnType? id

instance (a b : Document) (id : NodeId) : Decidable (a.AlikeAt b id) := by
  unfold AlikeAt; infer_instance

theorem alikeBeyond {a b : Document} {id : Nat} (inA : a.nodes.size ≤ id) (inB : b.nodes.size ≤ id) :
    a.AlikeAt b id := by
  refine ⟨?_, ?_, ?_, ?_, ?_, fun key _ => ?_, ?_⟩
  · rw [parentBeyond inA, parentBeyond inB]
  · rw [childrenBeyond inA, childrenBeyond inB]
  · rw [tagBeyond inA, tagBeyond inB]
  · rw [namespaceBeyond inA, namespaceBeyond inB]
  · rw [blankBeyond inA, blankBeyond inB]
  · unfold reference?
    rw [attributeBeyond inA, attributeBeyond inB]
  · unfold returnType?
    rw [attributeBeyond inA, attributeBeyond inB]

theorem alikeIff {a b : Document} : a.Alike b ↔ a.nodes.size = b.nodes.size ∧ a.root = b.root ∧
    a.defaultNamespace = b.defaultNamespace ∧ ∀ id < a.nodes.size, a.AlikeAt b id := by
  constructor
  · intro h
    exact ⟨h.size, h.root, h.defaultNamespace, fun id _ => ⟨h.parents id, h.children id, h.names id,
      h.namespaces id, h.blanks id, h.references id, h.returns id⟩⟩
  · intro given
    obtain ⟨size, root, namespace', inside⟩ := given
    have everywhere (id : Nat) : a.AlikeAt b id := by
      by_cases below : id < a.nodes.size
      · exact inside id below
      · have beyond := Nat.not_lt.mp below
        exact alikeBeyond beyond (size ▸ beyond)
    exact {
      size := size
      root := root
      defaultNamespace := namespace'
      parents := fun id => (everywhere id).1
      children := fun id => (everywhere id).2.1
      names := fun id => (everywhere id).2.2.1
      namespaces := fun id => (everywhere id).2.2.2.1
      blanks := fun id => (everywhere id).2.2.2.2.1
      references := fun id => (everywhere id).2.2.2.2.2.1
      returns := fun id => (everywhere id).2.2.2.2.2.2 }

instance (a b : Document) : Decidable (a.Alike b) := decidable_of_iff _ alikeIff.symm

namespace Alike

variable {a b : Document} (same : a.Alike b)
include same

theorem localNames (id : NodeId) :
    (a.tag? id).map Tag.localName = (b.tag? id).map Tag.localName := by
  have shortened (d : Document) : (d.tag? id).map Tag.localName =
      ((d.tag? id).map Tag.name).map fun name => .ofList (Text.afterLast ':' name.toList) := by
    rw [Option.map_map]
    rfl
  rw [shortened, shortened, same.names]

theorem isElementSame : a.isElement = b.isElement := by
  funext id
  unfold isElement
  rw [← Option.isSome_map (f := Tag.name), same.names, Option.isSome_map]

theorem hasKindSame : a.hasKind = b.hasKind := by
  funext kind id
  have compared (d : Document) : d.hasKind kind id =
      ((d.tag? id).map Tag.localName).any (· == kind.localName) := by
    unfold hasKind
    cases d.tag? id <;> rfl
  rw [compared, compared, same.localNames]

theorem descendantsSame : a.descendants = b.descendants := by
  have within (depth : Nat) (id : NodeId) :
      a.descendantsWithin depth id = b.descendantsWithin depth id := by
    induction depth generalizing id with
    | zero => rfl
    | succ depth ih =>
      simp only [descendantsWithin, same.children, same.isElementSame, ih]
  funext id
  unfold descendants
  rw [same.size, within]

theorem ancestorsSame : a.ancestors = b.ancestors := by
  have within (depth : Nat) (id : NodeId) :
      a.ancestorsWithin depth id = b.ancestorsWithin depth id := by
    induction depth generalizing id with
    | zero => rfl
    | succ depth ih => simp only [ancestorsWithin, same.parents, ih]
  funext id
  unfold ancestors
  rw [same.size, within]

theorem acceptsSame : a.accepts = b.accepts := by
  funext placement kind id
  unfold accepts
  rw [same.hasKindSame]
  cases placement with
  | inDefaultNamespace => simp only [isPlaced, same.namespaces, same.defaultNamespace]
  | inNoNamespace => simp only [isPlaced, same.namespaces]
  | belowDataServices => simp only [isPlaced, same.ancestorsSame, same.hasKindSame]

theorem findSame : a.find = b.find := by
  funext kind scope
  have candidates : a.candidates scope = b.candidates scope := by
    cases scope with
    | none => simp only [Document.candidates, same.root, same.descendantsSame]
    | some scope => simp only [Document.candidates, same.descendantsSame]
  unfold find matching
  rw [candidates, same.acceptsSame]

theorem referenceSame (key : String) (listed : key ∈ referenceKeys) :
    (a.reference? · key) = (b.reference? · key) :=
  funext fun id => same.references id key listed

theorem sectionsSame : a.sections = b.sections := by
  unfold sections
  rw [same.findSame]

theorem entityTypeSame : a.entityType? = b.entityType? := by
  funext id
  unfold entityType?
  rw [same.references id "Name" (by decide), same.findSame,
    same.referenceSame "Relationship" (by decide)]

theorem associationSame : a.association? = b.association? := by
  funext id
  unfold association?
  rw [same.references id "Name" (by decide), same.findSame,
    same.referenceSame "Type" (by decide)]

/- Nodes have the same numbers in both documents, so even the graphs are equal. -/
theorem navigationSame : a.navigation = b.navigation := by
  unfold navigation
  rw [same.sectionsSame, same.findSame, same.entityTypeSame, same.associationSame]

end Alike

theorem parentCutNode (d : Document) (id x : Nat) :
    (d.cutNode id).parent? x = if x = id then none else d.parent? x := by
  have cut := isCutCutNode d id x
  have nodes : (d.cutNode id).nodes = d.nodes := rfl
  by_cases own : x = id
  · rw [if_pos own]
    by_cases below : id < d.nodes.size
    · unfold parent?
      rw [cut.mpr (.inr ⟨own, below⟩), if_pos rfl]
    · subst own
      exact parentBeyond (d := d.cutNode x) (Nat.not_lt.mp below)
  · have same : (d.cutNode id).isCut x = d.isCut x := by
      rw [Bool.eq_iff_iff, cut]
      simp [own]
    unfold parent?
    rw [if_neg own, same, nodes]

theorem childrenCutNode (d : Document) (id parent : Nat) : (d.cutNode id).children parent =
    (d.children parent).filter fun x => !decide (x = id ∧ id < d.nodes.size) := by
  have nodes : (d.cutNode id).nodes = d.nodes := rfl
  unfold children
  rw [List.filter_filter, nodes]
  refine List.filter_congr fun x _ => ?_
  rw [Bool.eq_iff_iff, Bool.not_eq_true', ← Bool.not_eq_true, isCutCutNode, Bool.and_eq_true,
    Bool.not_eq_true', decide_eq_false_iff_not, Bool.not_eq_true', ← Bool.not_eq_true, not_or]
  exact and_comm

namespace Alike

variable {a b : Document} (same : a.Alike b)
include same

theorem cutNode (id : NodeId) : (a.cutNode id).Alike (b.cutNode id) where
  size := same.size
  root := same.root
  defaultNamespace := same.defaultNamespace
  parents x := by rw [parentCutNode, parentCutNode, same.parents]
  children x := by rw [childrenCutNode, childrenCutNode, same.children, same.size]
  names := same.names
  namespaces := same.namespaces
  blanks := same.blanks
  references := same.references
  returns := same.returns

theorem indentSame : a.indent? = b.indent? := by
  funext parent id
  unfold indent?
  rw [same.children, funext same.blanks]

theorem remove (id : NodeId) : (a.remove? id = none ∧ b.remove? id = none) ∨
    ∃ a' b', a.remove? id = some a' ∧ b.remove? id = some b' ∧ a'.Alike b' := by
  unfold remove?
  rw [same.parents, same.indentSame]
  cases b.parent? id with
  | none => exact .inl ⟨rfl, rfl⟩
  | some parent =>
    right
    simp only
    cases b.indent? parent id with
    | none => exact ⟨_, _, rfl, rfl, same.cutNode id⟩
    | some indent => exact ⟨_, _, rfl, rfl, (same.cutNode id).cutNode indent⟩

end Alike
end Document
end EdmxPruning
