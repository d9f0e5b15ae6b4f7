import EdmxPruning.Text
import EdmxPruning.Toml.Layout
import EdmxPruning.Toml.Moment
import EdmxPruning.Toml.Number
import EdmxPruning.Toml.Quoted
import EdmxPruning.Toml.Table

/-! Reading a configuration text. Every reader answers with the value and the rest of the text;
a text that breaks any rule of the format has no value at all. -/
namespace EdmxPruning.Toml

def bareKeyChar (c : Char) : Bool := c.isAlphanum || c == '_' || c == '-'

def key? : List Char → Option (String × List Char)
  | '"' :: rest => basic? rest
  | '\'' :: rest => literal? rest
  | cs =>
      if (cs.takeWhile bareKeyChar).isEmpty then none
      else some (.ofList (cs.takeWhile bareKeyChar), cs.dropWhile bareKeyChar)

structure Key where
  path : List String
  last : String
  deriving DecidableEq, Repr

def keysWithin : Nat → List String → List Char → Option (Key × List Char)
  | 0, _, _ => none
  | fuel + 1, path, cs => do
      let (last, rest) ← key? cs
      match skipBlanks rest with
      | '.' :: rest => keysWithin fuel (path ++ [last]) (skipBlanks rest)
      | rest => some (⟨path, last⟩, rest)

/-- No dotted key has more parts than this, and no value nests deeper. -/
def depthLimit : Nat := 80

def keys? (cs : List Char) : Option (Key × List Char) := keysWithin depthLimit [] cs

def scalarChar (c : Char) : Bool := !" \t\r\n#,=[]\x7b\x7d".toList.contains c

def scalar? (cs : List Char) : Option Value :=
  if cs = "true".toList then some (.boolean true)
  else if cs = "false".toList then some (.boolean false)
  else match integer? cs with
    | some n => some (.integer n)
    | none =>
        if isFloat cs then some (.float (.ofList cs))
        else if isMoment cs then some (.moment (.ofList cs))
        else if isNumeral cs then some (.unreadable (.ofList cs))
        else none

def continuesScalar (c : Char) : Bool := scalarChar c && c != '"' && c != '\''

/-- Blanks belong to a scalar if more of it follows, as between a date and a time. -/
def scalarLengthWithin : Nat → List Char → Nat
  | 0, _ => 0
  | fuel + 1, cs =>
      let first := (cs.takeWhile scalarChar).length
      let rest := cs.drop first
      let blanks := (rest.takeWhile isBlank).length
      let more := rest.drop blanks
      if 0 < blanks ∧ more.head?.any continuesScalar then
        first + blanks + scalarLengthWithin fuel more
      else first

def scalarLength (cs : List Char) : Nat := scalarLengthWithin (cs.length + 1) cs

def readScalar? (cs : List Char) : Option (Value × List Char) :=
  (scalar? (cs.take (scalarLength cs))).map fun v => (v, cs.drop (scalarLength cs))

def keyValue? (skip : List Char → List Char) (value? : List Char → Option (Value × List Char))
    (cs : List Char) : Option (Key × Value × List Char) := do
  let (key, rest) ← keys? cs
  let (value, rest) ← value? (skip (← expect? '=' (skip rest)))
  some (key, value, rest)

def itemsWithin (value? : List Char → Option (Value × List Char)) :
    Nat → List Value → List Char → Option (List Value × List Char)
  | 0, _, _ => none
  | fuel + 1, read, cs =>
      match skipLines cs with
      | ']' :: rest => some (read.reverse, rest)
      | cs => do
          let (value, rest) ← value? cs
          match skipLines rest with
          | ',' :: rest => itemsWithin value? fuel (value :: read) rest
          | ']' :: rest => some ((value :: read).reverse, rest)
          | _ => none

def entriesWithin (value? : List Char → Option (Value × List Char)) :
    Nat → Table → List Char → Option (Table × List Char)
  | 0, _, _ => none
  | fuel + 1, read, cs =>
      match skipLines cs with
      | '}' :: rest => some (read, rest)
      | cs => do
          let (key, value, rest) ← keyValue? skipLines value? cs
          let read ← read.add? key.path key.last value .inline
          match skipLines rest with
          | ',' :: rest => entriesWithin value? fuel read rest
          | '}' :: rest => some (read, rest)
          | _ => none

def value? : Nat → List Char → Option (Value × List Char)
  | _, '"' :: '"' :: '"' :: rest =>
      (multiline? '"' true rest).map fun (s, rest) => (.string s, rest)
  | _, '\'' :: '\'' :: '\'' :: rest =>
      (multiline? '\'' false rest).map fun (s, rest) => (.string s, rest)
  | _, '"' :: rest => (basic? rest).map fun (s, rest) => (.string s, rest)
  | _, '\'' :: rest => (literal? rest).map fun (s, rest) => (.string s, rest)
  | depth + 1, '[' :: rest =>
      (itemsWithin (value? depth) rest.length [] rest).map fun (items, rest) =>
        (.array false items, rest)
  | depth + 1, '{' :: rest =>
      (entriesWithin (value? depth) rest.length [] rest).map fun (entries, rest) =>
        (.table .inline entries, rest)
  | _, cs => readScalar? cs

structure Progress where
  root : Table
  header : List String

namespace Progress

def header? (p : Progress) (opens : List String → String → Table → Option Table)
    (mark : List Char) (cs : List Char) : Option (Progress × List Char) := do
  let (key, rest) ← keys? (skipBlanks cs)
  let rest ← mark.isPrefixOf? rest
  let root ← opens key.path key.last p.root
  some (⟨root, key.path ++ [key.last]⟩, rest)

def assign? (p : Progress) (cs : List Char) : Option (Progress × List Char) := do
  let (key, value, rest) ← keyValue? skipBlanks (value? depthLimit) cs
  let root ← Table.within? false (Table.add? key.path key.last value) p.header .header p.root
  some ({ p with root }, rest)

def statement? (p : Progress) : List Char → Option (Progress × List Char)
  | '[' :: '[' :: rest => p.header? Table.openArrayTable? [']', ']'] rest
  | '[' :: rest => p.header? Table.openTable? [']'] rest
  | cs => p.assign? cs

def linesWithin : Nat → Progress → List Char → Option Progress
  | 0, _, _ => none
  | fuel + 1, p, cs =>
      match lineEnd? cs with
      | some [] => some p
      | some rest => linesWithin fuel p rest
      | none => do
          let (p, rest) ← p.statement? (skipBlanks cs)
          linesWithin fuel p (← lineEnd? rest)

end Progress

def parse? (text : String) : Option Table :=
  let cs := Text.afterByteOrderMark text.toList
  (Progress.linesWithin (cs.length + 1) ⟨[], []⟩ cs).map Progress.root

end EdmxPruning.Toml
