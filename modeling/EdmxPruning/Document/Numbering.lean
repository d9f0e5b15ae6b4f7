import EdmxPruning.Document.Basic

/-! Documents from forests. Nodes are numbered in document order, an element before its
children. -/
namespace EdmxPruning
open Markup

namespace Markup.Forest

def after (first : NodeId) : Forest → NodeId
  | .nil => first
  | .leaf _ rest => rest.after (first + 1)
  | .element _ children rest => rest.after (children.after (first + 1))

def roots (first : NodeId) : Forest → List NodeId
  | .nil => []
  | .leaf _ rest => first :: rest.roots (first + 1)
  | .element _ children rest => first :: rest.roots (children.after (first + 1))

def rootElement? (first : NodeId) : Forest → Option NodeId
  | .nil => none
  | .leaf _ rest => rest.rootElement? (first + 1)
  | .element .. => some first

/-- Adds the nodes of a forest that stands inside the enclosing tags, innermost first. -/
def number (enclosing : List Tag) (parent : Option NodeId) (nodes : Array Node) :
    Forest → Array Node
  | .nil => nodes
  | .leaf l rest => rest.number enclosing parent (nodes.push ⟨.leaf l, parent, []⟩)
  | .element tag children rest =>
      let scopes := tag :: enclosing
      let uri := Document.resolve? tag.qualifier scopes
      let node := ⟨.element tag uri, parent, children.roots (nodes.size + 1)⟩
      rest.number enclosing parent (children.number scopes (some nodes.size) (nodes.push node))

end Markup.Forest

def Node.defaultNamespace? (node : Node) : Option String :=
  match node.content with
  | .element tag _ => tag.defaultNamespace?
  | .leaf _ => none

namespace Document

def ofForest? (f : Forest) : Option Document :=
  let nodes := f.number [] none #[]
  (f.rootElement? 0).map fun root =>
    { nodes
      topLevel := f.roots 0
      root
      defaultNamespace := (nodes.toList.findSome? Node.defaultNamespace?).getD metadataNamespace
      cuts := Array.replicate nodes.size false
      sizes := Array.size_replicate }

end Document
end EdmxPruning
