import EdmxPruning.Markup.Tag

/-! Tokens of a marked-up text. The text between the brackets is kept as written, so a token has
one markup and a token list one text. -/
namespace EdmxPruning.Markup

inductive Leaf where
  | text (content : String)
  | reference (name : String)
  | cdata (content : String)
  | comment (content : String)
  | instruction (content : String)
  | doctype (content : String)
  deriving DecidableEq, Repr

inductive Token where
  | startTag (content : String)
  | emptyTag (content : String)
  | endTag (name : String)
  | leaf (leaf : Leaf)
  | declaration (content : String)
  deriving DecidableEq, Repr

def Leaf.markup : Leaf → String
  | .text content => content
  | .reference name => "&" ++ name ++ ";"
  | .cdata content => "<![CDATA[" ++ content ++ "]]>"
  | .comment content => "<!--" ++ content ++ "-->"
  | .instruction content => "<?" ++ content ++ "?>"
  | .doctype content => "<!DOCTYPE " ++ content ++ ">"

def Token.markup : Token → String
  | .startTag content => "<" ++ content ++ ">"
  | .emptyTag content => "<" ++ content ++ "/>"
  | .endTag name => "</" ++ name ++ ">"
  | .leaf l => l.markup
  | .declaration content => "<?" ++ content ++ "?>"

def markup (tokens : List Token) : String := .join (tokens.map Token.markup)

end EdmxPruning.Markup
