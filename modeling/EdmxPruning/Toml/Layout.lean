/-! What stands between the parts of a configuration text: blanks, comments and line ends. -/
namespace EdmxPruning.Toml

def isBlank (c : Char) : Bool := c == ' ' || c == '\t'

/-- No control character but the tab may stand inside a line. -/
def lineChar (c : Char) : Bool := c == '\t' || (0x20 ≤ c.toNat && c.toNat != 0x7f)

def newline? : List Char → Option (List Char)
  | '\n' :: rest => some rest
  | '\r' :: '\n' :: rest => some rest
  | _ => none

def skipBlanks (cs : List Char) : List Char := cs.dropWhile isBlank

def skipComment : List Char → List Char
  | '#' :: rest => rest.dropWhile lineChar
  | cs => cs

/-- The text after the current line, which must hold nothing more than a comment. -/
def lineEnd? (cs : List Char) : Option (List Char) :=
  match skipComment (skipBlanks cs) with
  | [] => some []
  | rest => newline? rest

def skipLinesWithin : Nat → List Char → List Char
  | 0, cs => cs
  | fuel + 1, cs =>
      match newline? (skipComment (skipBlanks cs)) with
      | some rest => skipLinesWithin fuel rest
      | none => skipBlanks cs

def skipLines (cs : List Char) : List Char := skipLinesWithin cs.length cs

def skipSpaceWithin : Nat → List Char → List Char
  | 0, cs => cs
  | fuel + 1, cs =>
      match newline? (skipBlanks cs) with
      | some rest => skipSpaceWithin fuel rest
      | none => skipBlanks cs

def skipSpace (cs : List Char) : List Char := skipSpaceWithin cs.length cs

end EdmxPruning.Toml
