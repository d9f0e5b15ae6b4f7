import EdmxPruning.Proofs.Document.Order

/-! The tokens a document is written with. What is written for a node is written for each of its siblings
in turn, with the tags of their parent around it. -/
namespace EdmxPruning
open Markup

namespace Markup

theorem markupAppend (first second : List Token) :
    markup (first ++ second) = markup first ++ markup second := by
  rw [← String.toList_inj]
  simp [markupChars]

theorem Forest.elementThenRest (tag : Tag) (below rest : Forest) :
    (Forest.element tag below rest).tokens = (Forest.element tag below .nil).tokens ++ rest.tokens := by
  cases below with
  | nil => rfl
  | leaf l more => simp [tokens]
  | element own inner more => simp [tokens]

end Markup

namespace Document

def lineBreak : Token := .leaf (.text "\n")

def tokensOf (d : Document) (id : NodeId) : List Token := (d.forestWithin d.nodes.size [id]).tokens

def excerpt (d : Document) (ids : List NodeId) : String :=
  markup (d.forestWithin d.nodes.size ids).tokens

theorem forestWithinTokens (d : Document) (depth : Nat) (ids : List NodeId) :
    (d.forestWithin depth ids).tokens = ids.flatMap fun id => (d.forestWithin depth [id]).tokens := by
  cases depth with
  | zero => simp [forestWithin, Forest.tokens]
  | succ depth =>
    induction ids with
    | nil => rfl
    | cons id rest ih =>
      rw [List.flatMap_cons, ← ih, forestWithinCons, forestWithinCons]
      cases d.content? id with
      | none => rfl
      | some content =>
        cases content with
        | leaf l => rfl
        | element tag uri => exact Forest.elementThenRest tag _ _

theorem excerptTokens (d : Document) (ids : List NodeId) :
    d.excerpt ids = markup (ids.flatMap d.tokensOf) := by
  unfold excerpt
  rw [forestWithinTokens]
  rfl

theorem forestWithinLines (d : Document) (depth : Nat) {ids : List NodeId}
    (there : ∀ id ∈ ids, (d.content? id).isSome = true) :
    (d.forestWithin (depth + 1) ids).lines =
      (ids.flatMap fun id => lineBreak :: (d.forestWithin (depth + 1) [id]).tokens) ++
        [lineBreak] := by
  induction ids with
  | nil => rfl
  | cons id rest ih =>
    have later := ih fun x member => there x (List.mem_cons_of_mem _ member)
    rw [List.flatMap_cons, List.append_assoc, ← later, forestWithinCons, forestWithinCons]
    cases shape : d.content? id with
    | none => simp [shape] at there
    | some content => cases content <;> rfl

section Written

variable {d : Document} (arena : d.Arena)
include arena

/- The declaration, and then each top node after a line break. -/
theorem tokensOfTop : d.tokens = .declaration Forest.heading ::
    (d.topLevel.flatMap fun id => lineBreak :: d.tokensOf id) ++ [lineBreak] := by
  obtain ⟨depth, size⟩ := forestDepth arena
  have there : ∀ id ∈ d.topLevel, (d.content? id).isSome = true := by
    intro id listed
    have below := ((arena.topLevel id).mp listed).1
    simp [content?, below]
  unfold tokens forest tokensOf
  rw [size, d.forestWithinLines depth there]
  rfl

theorem tokensOfTree {id : NodeId} {f : Forest} (tree : d.Tree [id] f) : d.tokensOf id = f.tokens := by
  have below : id < d.nodes.size := by
    cases tree with
    | leaf own => exact contentBelow own
    | element own => exact contentBelow own
  have whole : d.Tree [id] (d.forestWithin d.nodes.size [id]) :=
    treeWithin arena fun x listed => by
      rw [List.mem_singleton.mp listed]
      exact ⟨below, Nat.le_add_left _ _⟩
  unfold tokensOf
  rw [whole.unique tree]

theorem treeOfChildren (id : NodeId) :
    d.Tree (d.children id) (d.forestWithin d.nodes.size (d.children id)) :=
  treeWithin arena fun _ listed =>
    ⟨originalParentBelow (parentParts.mp (arena.memChildren.mp listed)).2, Nat.le_add_left _ _⟩

section Element

variable {id : NodeId} {tag : Tag} (own : d.tag? id = some tag)
include own

theorem tokensOfElement : d.tokensOf id =
    (Forest.element tag (d.forestWithin d.nodes.size (d.children id)) .nil).tokens := by
  obtain ⟨uri, found⟩ := taggedContent own
  exact tokensOfTree arena (.element found (treeOfChildren arena id) .none)

theorem tokensOfEmpty (childless : d.children id = []) :
    d.tokensOf id = [.emptyTag tag.content] := by
  have inside := treeOfChildren arena id
  rw [childless] at inside
  rw [tokensOfElement arena own, childless, inside.unique .none]
  rfl

theorem tokensOfFilled (filled : d.children id ≠ []) : d.tokensOf id =
    .startTag tag.content :: (d.children id).flatMap d.tokensOf ++ [.endTag tag.name] := by
  have written : d.forestWithin d.nodes.size (d.children id) ≠ .nil := by
    intro empty
    have inside := treeOfChildren arena id
    rw [empty] at inside
    cases listed : d.children id with
    | nil => exact filled listed
    | cons first rest => rw [listed] at inside; cases inside
  rw [tokensOfElement arena own, Forest.elementTokens tag written, forestWithinTokens]
  rfl

end Element
end Written
end Document
end EdmxPruning
