import EdmxPruning.Document.Numbering
import EdmxPruning.Markup.Nesting

/-! Documents as text. A document is written as a declaration and then every top node on a line
of its own. What is left of it is written as it was read, but for the quotes around values. -/
namespace EdmxPruning
open Markup

def Markup.Forest.lines : Forest → List Token
  | .nil => [.leaf (.text "\n")]
  | .leaf l rest => .leaf (.text "\n") :: .leaf l :: rest.lines
  | .element tag children rest =>
      .leaf (.text "\n") :: (Forest.element tag children .nil).tokens ++ rest.lines

namespace Document

def parse (text : String) : Except ReadError Document := do
  let forest ← Forest.read text
  match ofForest? forest with
  | some document => .ok document
  | none => .error .noRootElement

def forestWithin (d : Document) : Nat → List NodeId → Forest
  | 0, _ => .nil
  | depth + 1, ids =>
      ids.foldr (fun id rest =>
        match d.content? id with
        | some (.element tag _) => .element tag (d.forestWithin depth (d.children id)) rest
        | some (.leaf l) => .leaf l rest
        | none => rest) .nil

def forest (d : Document) : Forest := d.forestWithin d.nodes.size d.topLevel

def tokens (d : Document) : List Token :=
  .declaration "xml version=\"1.0\" encoding=\"utf-8\"" :: d.forest.lines

def toXml (d : Document) : String := markup d.tokens

end Document
end EdmxPruning
