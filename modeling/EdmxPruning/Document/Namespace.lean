import EdmxPruning.Text
import EdmxPruning.Markup.Tag

/-! Namespaces are lexical: a qualifier means what the nearest enclosing start tag declares for it,
and an empty declaration means no namespace. -/
namespace EdmxPruning.Markup

def Tag.localName (tag : Tag) : String := .ofList (Text.afterLast ':' tag.name.toList)

def Tag.qualifier (tag : Tag) : String := .ofList (Text.beforeLast ':' tag.name.toList)

def Attribute.declares (qualifier : String) (a : Attribute) : Bool :=
  a.key == "xmlns:" ++ qualifier || (qualifier == "" && a.key == "xmlns")

/-- The last declaration of a tag counts. -/
def Tag.declared? (tag : Tag) (qualifier : String) : Option String :=
  ((tag.attributes.filter (Attribute.declares qualifier)).getLast?).map Attribute.raw

def Tag.defaultNamespace? (tag : Tag) : Option String :=
  (tag.declared? "").filter (· ≠ "")

end EdmxPruning.Markup

namespace EdmxPruning.Document
open Markup

def xmlNamespace : String := "http://www.w3.org/XML/1998/namespace"

def metadataNamespace : String := "http://schemas.microsoft.com/ado/2008/09/edm"

/-- Resolves a qualifier inside the given start tags, innermost first. -/
def resolve? (qualifier : String) (scopes : List Tag) : Option String :=
  if qualifier = "xml" then some xmlNamespace
  else (scopes.findSome? (·.declared? qualifier)).filter (· ≠ "")

end EdmxPruning.Document
