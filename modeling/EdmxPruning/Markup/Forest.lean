import EdmxPruning.Text
import EdmxPruning.Markup.Token

/-! Ordered forests of elements and leaves, and the two ways to list them: as the marks of a walk
through the forest, and as the tokens that write it, where a childless element is one empty tag. -/
namespace EdmxPruning.Markup

inductive Forest where
  | nil
  | leaf (leaf : Leaf) (rest : Forest)
  | element (tag : Tag) (children : Forest) (rest : Forest)
  deriving DecidableEq, Repr

def Leaf.isBlankText : Leaf → Bool
  | .text content => Text.isBlank content
  | _ => false

/-- A step of the walk through a forest: into an element, out of it, or over a leaf. -/
inductive Mark where
  | opening (tag : Tag)
  | closing (name : String)
  | leaf (leaf : Leaf)
  deriving DecidableEq, Repr

namespace Forest

def marks : Forest → List Mark
  | .nil => []
  | .leaf l rest => .leaf l :: rest.marks
  | .element tag children rest =>
      .opening tag :: children.marks ++ .closing tag.name :: rest.marks

def tokens : Forest → List Token
  | .nil => []
  | .leaf l rest => .leaf l :: rest.tokens
  | .element tag .nil rest => .emptyTag tag.content :: rest.tokens
  | .element tag children rest =>
      .startTag tag.content :: children.tokens ++ .endTag tag.name :: rest.tokens

def reverseOnto (done : Forest) : Forest → Forest
  | .nil => done
  | .leaf l rest => reverseOnto (.leaf l done) rest
  | .element tag children rest => reverseOnto (.element tag children done) rest

def reverse (f : Forest) : Forest := reverseOnto .nil f

def hasElement : Forest → Bool
  | .nil => false
  | .leaf _ rest => rest.hasElement
  | .element .. => true

end Forest

end EdmxPruning.Markup
