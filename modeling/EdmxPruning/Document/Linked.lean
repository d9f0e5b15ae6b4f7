import EdmxPruning.Document.Basic

/-! Documents with links. Each node knows its parent and each element the children it has left, and
taking an element out edits both. -/
namespace EdmxPruning
open Markup

def Content.isElement : Content → Bool
  | .element .. => true
  | .leaf _ => false

def Content.isBlankText : Content → Bool
  | .element .. => false
  | .leaf l => l.isBlankText

@[ext]
structure Linked where
  nodes : Array Node
  topLevel : List NodeId
  root : NodeId
  defaultNamespace : String
  deriving DecidableEq, Repr

namespace Linked

def content? (l : Linked) (id : NodeId) : Option Content := l.nodes[id]?.map Node.content

def isElement (l : Linked) (id : NodeId) : Bool := (l.content? id).any Content.isElement

def isBlankText (l : Linked) (id : NodeId) : Bool := (l.content? id).any Content.isBlankText

def parent? (l : Linked) (id : NodeId) : Option NodeId := l.nodes[id]?.bind Node.parent

def children (l : Linked) (id : NodeId) : List NodeId :=
  if l.isElement id then (l.nodes[id]?.map Node.children).getD [] else []

def eraseChild (l : Linked) (id : NodeId) (place : Nat) : Linked :=
  { l with
    nodes := l.nodes.modify id fun node => { node with children := node.children.eraseIdx place } }

def detach (l : Linked) (id : NodeId) : Linked :=
  { l with nodes := l.nodes.modify id fun node => { node with parent := none } }

def leading? (l : Linked) (siblings : List NodeId) : Nat → Option NodeId
  | 0 => none
  | previous + 1 => siblings[previous]?.filter l.isBlankText

/-- Takes a node out of its parent together with a blank text right before it, and says whether it
did. -/
def remove (l : Linked) (id : NodeId) : Bool × Linked :=
  match l.parent? id with
  | none => (false, l)
  | some parent =>
      match (l.children parent).idxOf? id with
      | none => (false, l)
      | some place =>
          if l.isElement parent then
            match l.leading? (l.children parent) place with
            | none => (true, (l.eraseChild parent place).detach id)
            | some blank =>
                let closed := (l.eraseChild parent place).eraseChild parent (place - 1)
                (true, (closed.detach id).detach blank)
          else (false, l)

def removeEach (l : Linked) (ids : List NodeId) : Linked :=
  ids.foldl (fun left id => (left.remove id).2) l

end Linked

def Document.linked (d : Document) : Linked where
  nodes := d.nodes.mapIdx fun id node =>
    { node with parent := d.parent? id, children := d.children id }
  topLevel := d.topLevel
  root := d.root
  defaultNamespace := d.defaultNamespace

end EdmxPruning
