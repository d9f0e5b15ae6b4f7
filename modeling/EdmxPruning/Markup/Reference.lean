import EdmxPruning.Text
import EdmxPruning.Markup.Tag

/-! Character references in attribute values: the five named ones and code points in decimal or
hexadecimal. A value with a reference that names no character has no expansion and reads as it
stands. -/
namespace EdmxPruning.Markup
open Text (number? character?)

def referenced? : List Char → Option Char
  | '#' :: 'x' :: digits => (number? 16 digits).bind nonNull
  | '#' :: digits => (number? 10 digits).bind nonNull
  | name =>
      [("lt", '<'), ("gt", '>'), ("amp", '&'), ("apos", '\''), ("quot", '"')].lookup
        (String.ofList name)
where
  nonNull (n : Nat) : Option Char := if n = 0 then none else character? n

def referenceEnd (c : Char) : Bool := c == ';' || c == '&'

def expandFrom? : Nat → List Char → Option (List Char)
  | 0, _ => none
  | _ + 1, [] => some []
  | fuel + 1, '&' :: more =>
      match more.dropWhile (!referenceEnd ·) with
      | ';' :: rest => do
          let c ← referenced? (more.takeWhile (!referenceEnd ·))
          let cs ← expandFrom? fuel rest
          some (c :: cs)
      | _ => none
  | fuel + 1, c :: more => (expandFrom? fuel more).map (c :: ·)

def expand? (cs : List Char) : Option (List Char) := expandFrom? (cs.length + 1) cs

def Attribute.value (a : Attribute) : String :=
  match expand? a.raw.toList with
  | some cs => .ofList cs
  | none => a.raw

end EdmxPruning.Markup
