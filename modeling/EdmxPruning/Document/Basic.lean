import EdmxPruning.Document.Namespace
import EdmxPruning.Markup.Reference
import EdmxPruning.Markup.Forest

/-! Documents that only shrink. The nodes stay as they were read and are named by their place in
document order; taking an element out cuts it from its parent, and whether a node is cut is all
that ever changes. -/
namespace EdmxPruning
open Markup

abbrev NodeId := Nat

inductive Content where
  | element (tag : Tag) (namespace? : Option String)
  | leaf (leaf : Leaf)
  deriving DecidableEq, Repr

structure Node where
  content : Content
  parent : Option NodeId
  children : List NodeId
  deriving DecidableEq, Repr

structure Document where
  nodes : Array Node
  topLevel : List NodeId
  root : NodeId
  defaultNamespace : String
  cuts : Array Bool
  sizes : cuts.size = nodes.size
  deriving DecidableEq, Repr

namespace Document

def content? (d : Document) (id : NodeId) : Option Content := d.nodes[id]?.map Node.content

def tag? (d : Document) (id : NodeId) : Option Tag :=
  match d.content? id with
  | some (.element tag _) => some tag
  | _ => none

def isElement (d : Document) (id : NodeId) : Bool := (d.tag? id).isSome

def namespace? (d : Document) (id : NodeId) : Option String :=
  match d.content? id with
  | some (.element _ uri) => uri
  | _ => none

def isBlankText (d : Document) (id : NodeId) : Bool :=
  match d.content? id with
  | some (.leaf leaf) => leaf.isBlankText
  | _ => false

def attribute? (d : Document) (id : NodeId) (name : String) : Option String := do
  let tag ← d.tag? id
  let found ← tag.attributes.find? (·.key == name)
  some found.value

def isCut (d : Document) (id : NodeId) : Bool := d.cuts.getD id false

def parent? (d : Document) (id : NodeId) : Option NodeId :=
  if d.isCut id then none else d.nodes[id]?.bind Node.parent

def children (d : Document) (id : NodeId) : List NodeId :=
  ((d.nodes[id]?.map Node.children).getD []).filter (!d.isCut ·)

def descendantsWithin (d : Document) : Nat → NodeId → List NodeId
  | 0, _ => []
  | depth + 1, id =>
      (d.children id).flatMap fun child =>
        if d.isElement child then child :: d.descendantsWithin depth child else []

/-- The elements below a node in document order. No path is longer than the number of nodes. -/
def descendants (d : Document) (id : NodeId) : List NodeId := d.descendantsWithin d.nodes.size id

def ancestorsWithin (d : Document) : Nat → NodeId → List NodeId
  | 0, _ => []
  | depth + 1, id =>
      match d.parent? id with
      | none => []
      | some parent => parent :: d.ancestorsWithin depth parent

def ancestors (d : Document) (id : NodeId) : List NodeId := d.ancestorsWithin d.nodes.size id

def cutNode (d : Document) (id : NodeId) : Document :=
  { d with
    cuts := d.cuts.setIfInBounds id true
    sizes := by rw [Array.size_setIfInBounds]; exact d.sizes }

def before? (id : NodeId) : List NodeId → Option NodeId
  | first :: second :: rest => if second = id then some first else before? id (second :: rest)
  | _ => none

/-- The blank text that stands directly before a child and leaves the document with it. -/
def indent? (d : Document) (parent id : NodeId) : Option NodeId :=
  (before? id (d.children parent)).filter d.isBlankText

/-- Takes a node out of its parent; nodes without a parent stay where they are. -/
def remove? (d : Document) (id : NodeId) : Option Document :=
  match d.parent? id with
  | none => none
  | some parent =>
      match d.indent? parent id with
      | none => some (d.cutNode id)
      | some indent => some ((d.cutNode id).cutNode indent)

end Document
end EdmxPruning
