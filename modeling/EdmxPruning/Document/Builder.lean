import EdmxPruning.Document.Linked
import EdmxPruning.Markup.Nesting

/-! Linked documents from text. Nodes are added one by one, each below the innermost open element,
which has it from then on as its last child. -/
namespace EdmxPruning
open Markup

/-- What a start tag declares, its last declarations first. -/
abbrev Scope := List (String × String)

def Markup.Attribute.declaration? (a : Attribute) : Option (String × String) :=
  if a.key = "xmlns" then some ("", a.raw)
  else ("xmlns:".toList.isPrefixOf? a.key.toList).map fun qualifier => (.ofList qualifier, a.raw)

def Markup.Tag.scope (tag : Tag) : Scope := (tag.attributes.filterMap Attribute.declaration?).reverse

def Node.adopt (node : Node) (ids : List NodeId) : Node :=
  match node.content with
  | .element .. => { node with children := node.children ++ ids }
  | .leaf _ => node

structure Builder where
  nodes : Array Node
  topLevel : List NodeId
  root? : Option NodeId
  opened : List (NodeId × Scope)
  firstDefault? : Option String

namespace Builder

def start : Builder := ⟨#[], [], none, [], none⟩

def parent? (b : Builder) : Option NodeId := b.opened.head?.map Prod.fst

def push (b : Builder) (content : Content) : Builder :=
  let node : Node := ⟨content, b.parent?, []⟩
  match b.parent? with
  | some parent => { b with nodes := (b.nodes.modify parent (·.adopt [b.nodes.size])).push node }
  | none => { b with nodes := b.nodes.push node, topLevel := b.topLevel ++ [b.nodes.size] }

/-- Resolves a qualifier in the scope of a tag and then in those around it. -/
def resolve? (b : Builder) (qualifier : String) (own : Scope) : Option String :=
  if qualifier = "xml" then some Document.xmlNamespace
  else ((own :: b.opened.map Prod.snd).findSome? (·.lookup qualifier)).filter (· ≠ "")

def into (b : Builder) (tag : Tag) : Builder :=
  { b.push (.element tag (b.resolve? tag.qualifier tag.scope)) with
    root? := if b.opened.isEmpty then some b.nodes.size else b.root?
    opened := (b.nodes.size, tag.scope) :: b.opened
    firstDefault? := b.firstDefault?.or ((tag.scope.lookup "").filter (· ≠ "")) }

def enter (b : Builder) (tag : Tag) : Except ReadError Builder :=
  if b.opened.isEmpty && b.root?.isSome then .error (.secondRootElement tag.name)
  else .ok (b.into tag)

def leave (b : Builder) : Except ReadError Builder :=
  match b.opened with
  | [] => .error .unexpectedEndTag
  | _ :: outer => .ok { b with opened := outer }

def append (b : Builder) (l : Leaf) : Builder :=
  if b.opened.isEmpty && l.isBlankText then b else b.push (.leaf l)

def elementName (b : Builder) (id : NodeId) : String :=
  match b.nodes[id]?.map Node.content with
  | some (.element tag _) => tag.name
  | _ => ""

def finish (b : Builder) : Except ReadError Linked :=
  match b.opened, b.root? with
  | (id, _) :: _, _ => .error (.unclosedElement (b.elementName id))
  | [], none => .error .noRootElement
  | [], some root =>
      .ok ⟨b.nodes, b.topLevel, root, b.firstDefault?.getD Document.metadataNamespace⟩

end Builder

/-- A document that is being built, and the names of the elements that are open in the text, which
the end tags have to repeat. -/
structure Building where
  builder : Builder
  names : List String

namespace Building

def start : Building := ⟨.start, []⟩

def mark (s : Building) : Mark → Except ReadError Building
  | .opening tag => do
      let builder ← s.builder.enter tag
      .ok ⟨builder, tag.name :: s.names⟩
  | .closing name =>
      match s.names with
      | [] => .error (.illFormed (.unopenedEnd name))
      | expected :: outer =>
          if expected = name then do
            let builder ← s.builder.leave
            .ok ⟨builder, outer⟩
          else .error (.illFormed (.mismatchedEnd expected name))
  | .leaf l => .ok ⟨s.builder.append l, s.names⟩

def token (s : Building) (t : Token) : Except ReadError Building :=
  match t.marks with
  | .error error => .error (.attribute error)
  | .ok marks => marks.foldlM mark s

end Building

namespace Linked

def ofScan (s : Scan) : Except ReadError Linked := do
  let built ← s.tokens.foldlM Building.token .start
  match s.fault with
  | some error => .error error
  | none => built.builder.finish

def parse (text : String) : Except ReadError Linked := ofScan (scan text)

end Linked
end EdmxPruning
