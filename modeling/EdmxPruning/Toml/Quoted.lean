import EdmxPruning.Text
import EdmxPruning.Toml.Layout

/-! Quoted texts: basic ones with escapes and literal ones without, each on one line or, between
triple quotes, on several. Readers start after the opening quotes. -/
namespace EdmxPruning.Toml
open Text (number? character?)

def codeEscape? (width : Nat) (cs : List Char) : Option (Char × List Char) :=
  if cs.length < width then none
  else ((number? 16 (cs.take width)).bind character?).map fun c => (c, cs.drop width)

def escape? : List Char → Option (Char × List Char)
  | 'b' :: rest => some ('\x08', rest)
  | 't' :: rest => some ('\t', rest)
  | 'n' :: rest => some ('\n', rest)
  | 'f' :: rest => some ('\x0c', rest)
  | 'r' :: rest => some ('\r', rest)
  | 'e' :: rest => some ('\x1b', rest)
  | '"' :: rest => some ('"', rest)
  | '\\' :: rest => some ('\\', rest)
  | 'x' :: rest => codeEscape? 2 rest
  | 'u' :: rest => codeEscape? 4 rest
  | 'U' :: rest => codeEscape? 8 rest
  | _ => none

def basicWithin : Nat → List Char → List Char → Option (String × List Char)
  | 0, _, _ => none
  | _ + 1, _, [] => none
  | _ + 1, read, '"' :: rest => some (.ofList read.reverse, rest)
  | fuel + 1, read, '\\' :: rest => do
      let (c, rest) ← escape? rest
      basicWithin fuel (c :: read) rest
  | fuel + 1, read, c :: rest => if lineChar c then basicWithin fuel (c :: read) rest else none

def basic? (cs : List Char) : Option (String × List Char) := basicWithin (cs.length + 1) [] cs

def literal? (cs : List Char) : Option (String × List Char) :=
  match cs.dropWhile (fun c => lineChar c && c != '\'') with
  | '\'' :: rest => some (.ofList (cs.takeWhile (fun c => lineChar c && c != '\'')), rest)
  | _ => none

/-- A run of quotes closes a text on several lines if it holds three; up to two more before them
belong to the text. -/
def closing? (quote : Char) (cs : List Char) : Nat × Option (List Char) :=
  let run := (cs.takeWhile (· == quote)).length
  if run < 3 then (run, none)
  else
    let inside := min (run - 3) 2
    (inside, some (cs.drop (inside + 3)))

def multilineWithin (quote : Char) (escapes : Bool) :
    Nat → List Char → List Char → Option (String × List Char)
  | 0, _, _ => none
  | _ + 1, _, [] => none
  | fuel + 1, read, c :: rest =>
      if c = quote then
        match closing? quote (c :: rest) with
        | (n, some rest) => some (.ofList (List.replicate n quote ++ read).reverse, rest)
        | (n, none) =>
            multilineWithin quote escapes fuel (List.replicate n quote ++ read)
              ((c :: rest).drop n)
      else if escapes ∧ c = '\\' then
        match newline? (skipBlanks rest) with
        | some rest => multilineWithin quote escapes fuel read (skipSpace rest)
        | none => do
            let (c, rest) ← escape? rest
            multilineWithin quote escapes fuel (c :: read) rest
      else if lineChar c ∨ c = '\n' ∨ (c = '\r' ∧ rest.head? = some '\n') then
        multilineWithin quote escapes fuel (c :: read) rest
      else none

/-- A line end right after the opening quotes does not belong to the text. -/
def multiline? (quote : Char) (escapes : Bool) (cs : List Char) : Option (String × List Char) :=
  multilineWithin quote escapes (cs.length + 1) [] ((newline? cs).getD cs)

end EdmxPruning.Toml
