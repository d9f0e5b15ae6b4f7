/-! What can be wrong with a marked-up text, and how each fault is worded. Positions inside a tag
count UTF-8 bytes from the first character of the element name. -/
namespace EdmxPruning.Markup

inductive MarkupFault where
  | unclosedTag
  | unclosedComment
  | unclosedCData
  | unclosedDoctype
  | unclosedInstruction
  | unknownMarkup
  deriving DecidableEq, Repr

inductive IllFormed where
  | unclosedReference
  | namelessDoctype
  | unopenedEnd (name : String)
  | mismatchedEnd (expected found : String)
  deriving DecidableEq, Repr

inductive AttributeFault where
  | missingEquals
  | repeatedKey (previous : Nat)
  | missingValue
  | unquotedValue
  | unclosedValue (quote : Char)
  deriving DecidableEq, Repr

structure AttributeError where
  position : Nat
  fault : AttributeFault
  deriving DecidableEq, Repr

inductive ReadError where
  | markup (fault : MarkupFault)
  | illFormed (fault : IllFormed)
  | attribute (error : AttributeError)
  | unexpectedEndTag
  | unclosedElement (name : String)
  | noRootElement
  | secondRootElement (name : String)
  deriving DecidableEq, Repr

def MarkupFault.message : MarkupFault → String
  | .unclosedTag => "tag not closed: `>` not found before end of input"
  | .unclosedComment => "comment not closed: `-->` not found before end of input"
  | .unclosedCData => "CDATA not closed: `]]>` not found before end of input"
  | .unclosedDoctype => "DOCTYPE not closed: `>` not found before end of input"
  | .unclosedInstruction =>
      "processing instruction or xml declaration not closed: `?>` not found before end of input"
  | .unknownMarkup => "unknown or missed symbol in markup"

def IllFormed.message : IllFormed → String
  | .unclosedReference =>
      "entity or character reference not closed: `;` not found before end of input"
  | .namelessDoctype => "`<!DOCTYPE>` declaration does not contain a name of a document type"
  | .unopenedEnd name => "close tag `</" ++ name ++ ">` does not match any open tag"
  | .mismatchedEnd expected found =>
      "expected `</" ++ expected ++ ">`, but `</" ++ found ++ ">` was found"

def AttributeFault.message : AttributeFault → String
  | .missingEquals => "attribute key must be directly followed by `=` or space"
  | .repeatedKey previous =>
      "duplicated attribute, previous declaration at position " ++ toString previous
  | .missingValue => "`=` must be followed by an attribute value"
  | .unquotedValue => "attribute value must be enclosed in `\"` or `'`"
  | .unclosedValue quote => "missing closing quote `" ++ quote.toString ++ "` in attribute value"

def ReadError.message : ReadError → String
  | .markup fault => "XML error: syntax error: " ++ fault.message
  | .illFormed fault => "XML error: ill-formed document: " ++ fault.message
  | .attribute ⟨position, fault⟩ =>
      "invalid attribute: position " ++ toString position ++ ": " ++ fault.message
  | .unexpectedEndTag => "end tag without start tag"
  | .unclosedElement name => "element is not closed: " ++ name
  | .noRootElement => "document has no root element"
  | .secondRootElement name => "unexpected second top-level element: " ++ name

end EdmxPruning.Markup
