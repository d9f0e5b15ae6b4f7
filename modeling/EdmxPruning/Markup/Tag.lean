import EdmxPruning.Markup.Fault

/-! Start tags: a name and attributes whose values stay as written, references included.
A tag is written with double quotes, so a double quote inside a value becomes a reference. -/
namespace EdmxPruning.Markup

def isSpace (c : Char) : Bool := c == ' ' || c == '\t' || c == '\n' || c == '\r'

structure Attribute where
  key : String
  raw : String
  deriving DecidableEq, Repr

structure Tag where
  name : String
  attributes : List Attribute
  deriving DecidableEq, Repr

def quoteSafe (raw : String) : String :=
  .ofList (raw.toList.flatMap fun c => if c = '"' then "&quot;".toList else [c])

def Attribute.content (a : Attribute) : String := a.key ++ "=\"" ++ quoteSafe a.raw ++ "\""

def Tag.content (tag : Tag) : String :=
  tag.attributes.foldl (fun text a => text ++ " " ++ a.content) tag.name

def utf8Length (cs : List Char) : Nat := cs.foldl (fun n c => n + c.utf8Size) 0

def keyChar (c : Char) : Bool := c != '=' && !isSpace c

/-- Reads attributes from the end part of a tag that is `total` bytes long; `seen` holds the keys
read before with their positions. The first character of a key may be any, even an equals sign. -/
def readAttributes (total : Nat) :
    Nat → List (List Char × Nat) → List Char → Except AttributeError (List Attribute)
  | 0, _, _ => .ok []
  | fuel + 1, seen, cs =>
      match cs.dropWhile isSpace with
      | [] => .ok []
      | first :: more =>
          let start := total - utf8Length (first :: more)
          let key := first :: more.takeWhile keyChar
          match (more.dropWhile keyChar).dropWhile isSpace with
          | '=' :: value =>
              match seen.lookup key, value.dropWhile isSpace with
              | some previous, _ => .error ⟨start, .repeatedKey previous⟩
              | none, [] => .error ⟨total, .missingValue⟩
              | none, quote :: inside =>
                  if quote = '"' ∨ quote = '\'' then
                    match inside.dropWhile (· != quote) with
                    | [] => .error ⟨total, .unclosedValue quote⟩
                    | _ :: rest => do
                        let later ← readAttributes total fuel ((key, start) :: seen) rest
                        .ok (⟨.ofList key, .ofList (inside.takeWhile (· != quote))⟩ :: later)
                  else .error ⟨total - utf8Length (quote :: inside), .unquotedValue⟩
          | other => .error ⟨total - utf8Length other, .missingEquals⟩

/-- The name runs to the first space and may be empty or hold any other character. -/
def Tag.ofContent (content : String) : Except AttributeError Tag := do
  let cs := content.toList
  let attributes ← readAttributes (utf8Length cs) (cs.length + 1) [] (cs.dropWhile (!isSpace ·))
  .ok ⟨.ofList (cs.takeWhile (!isSpace ·)), attributes⟩

end EdmxPruning.Markup
