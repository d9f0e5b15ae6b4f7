import EdmxPruning.Markup.Forest
import EdmxPruning.Markup.Scan

/-! Forests from tokens. An element is opened by a start tag and closed by an end tag of its name;
at the top level there is one element at most and blank text does not count. -/
namespace EdmxPruning.Markup

def Token.marks : Token → Except AttributeError (List Mark)
  | .startTag content => do
      let tag ← Tag.ofContent content
      .ok [.opening tag]
  | .emptyTag content => do
      let tag ← Tag.ofContent content
      .ok [.opening tag, .closing tag.name]
  | .endTag name => .ok [.closing name]
  | .leaf l => .ok [.leaf l]
  | .declaration _ => .ok []

structure Frame where
  tag : Tag
  earlier : Forest
  deriving DecidableEq, Repr

/-- A forest read in part: what was read so far at the current level, and the open elements with
what was read before them. Siblings are kept latest first, open elements innermost first. -/
structure Nesting where
  earlier : Forest
  frames : List Frame
  deriving DecidableEq, Repr

namespace Nesting

def start : Nesting := ⟨.nil, []⟩

def mark (n : Nesting) : Mark → Except ReadError Nesting
  | .opening tag =>
      if n.frames.isEmpty && n.earlier.hasElement then .error (.secondRootElement tag.name)
      else .ok ⟨.nil, ⟨tag, n.earlier⟩ :: n.frames⟩
  | .closing name =>
      match n.frames with
      | [] => .error (.illFormed (.unopenedEnd name))
      | frame :: outer =>
          if frame.tag.name = name then
            .ok ⟨.element frame.tag n.earlier.reverse frame.earlier, outer⟩
          else .error (.illFormed (.mismatchedEnd frame.tag.name name))
  | .leaf l =>
      if n.frames.isEmpty && l.isBlankText then .ok n
      else .ok ⟨.leaf l n.earlier, n.frames⟩

def token (n : Nesting) (t : Token) : Except ReadError Nesting :=
  match t.marks with
  | .error error => .error (.attribute error)
  | .ok marks => marks.foldlM mark n

def finish (n : Nesting) : Except ReadError Forest :=
  match n.frames with
  | frame :: _ => .error (.unclosedElement frame.tag.name)
  | [] => .ok n.earlier.reverse

end Nesting

/-- The first fault in the order of the text is the answer, so a fault of the scan comes after
those of the tokens before it. -/
def Forest.ofScan (s : Scan) : Except ReadError Forest := do
  let nesting ← s.tokens.foldlM Nesting.token .start
  match s.fault with
  | some error => .error error
  | none => nesting.finish

def Forest.read (text : String) : Except ReadError Forest := Forest.ofScan (scan text)

end EdmxPruning.Markup
