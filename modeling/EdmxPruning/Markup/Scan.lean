import EdmxPruning.Markup.Token
import EdmxPruning.Text

/-! Scanning a text into tokens, one at a time from the head. Every kind of markup runs to the
first closing bracket that its own rule accepts; the scan ends at the end of the text or at the
first fault, and the tokens read before a fault are kept. -/
namespace EdmxPruning.Markup

/-- Reads up to the bracket at which `step` gives no further state. The last `tail` characters
before it belong to the closing mark and not to the content. -/
def upToClose {σ : Type} (step : σ → Char → Option σ) (tail : Nat) :
    σ → List Char → List Char → Option (String × List Char)
  | _, _, [] => none
  | state, read, c :: rest =>
      match step state c with
      | none => some (.ofList (read.drop tail).reverse, rest)
      | some next => upToClose step tail next (c :: read) rest

/-- Closes after `need` marks in a row; the state counts the marks just read. -/
def afterMarks (mark : Char) (need : Nat) (run : Nat) (c : Char) : Option Nat :=
  if c = '>' ∧ need ≤ run then none else some (if c = mark then run + 1 else 0)

/-- Closes outside of quotes; the state is the quote that is open. -/
def outsideQuotes : Option Char → Char → Option (Option Char)
  | none, c => if c = '>' then none else some (if c = '"' ∨ c = '\'' then some c else none)
  | some quote, c => some (if c = quote then none else some quote)

/-- Closes where brackets balance; the state counts the open ones. -/
def balanced (depth : Nat) (c : Char) : Option Nat :=
  if c = '<' then some (depth + 1)
  else if c = '>' then (if depth = 0 then none else some (depth - 1))
  else some depth

inductive Head where
  | done
  | token (token : Token) (rest : List Char)
  | fault (error : ReadError)
  deriving DecidableEq, Repr

def closed (fault : MarkupFault) (token : String → Token) :
    Option (String × List Char) → Head
  | some (content, rest) => .token (token content) rest
  | none => .fault (.markup fault)

def scanComment (cs : List Char) : Head :=
  closed .unclosedComment (.leaf ∘ .comment) (upToClose (afterMarks '-' 2) 2 0 [] cs)

def scanCData (cs : List Char) : Head :=
  closed .unclosedCData (.leaf ∘ .cdata) (upToClose (afterMarks ']' 2) 2 0 [] cs)

def scanDoctype (cs : List Char) : Head :=
  match upToClose balanced 0 0 [] cs with
  | none => .fault (.markup .unclosedDoctype)
  | some (content, rest) =>
      match content.toList.dropWhile isSpace with
      | [] => .fault (.illFormed .namelessDoctype)
      | content => .token (.leaf (.doctype (.ofList content))) rest

/-- Declarations of the document, a doctype apart, look like instructions named `xml`. -/
def instruction (content : String) : Token :=
  match content.toList with
  | ['x', 'm', 'l'] => .declaration content
  | 'x' :: 'm' :: 'l' :: c :: _ =>
      if isSpace c then .declaration content else .leaf (.instruction content)
  | _ => .leaf (.instruction content)

def scanInstruction (cs : List Char) : Head :=
  if cs.head? = some '>' then .fault (.markup .unclosedInstruction)
  else closed .unclosedInstruction instruction (upToClose (afterMarks '?' 1) 1 0 [] cs)

/-- Space before the closing bracket is no part of an end tag's name, unless there is only space. -/
def endName (content : String) : String :=
  match content.toList.reverse.dropWhile isSpace with
  | [] => content
  | name => .ofList name.reverse

def startOrEmpty (content : String) : Token :=
  match content.toList.reverse with
  | '/' :: name => .emptyTag (.ofList name.reverse)
  | _ => .startTag content

def scanTag (token : String → Token) (cs : List Char) : Head :=
  closed .unclosedTag token (upToClose outsideQuotes 0 none [] cs)

def scanBang (cs : List Char) : Head :=
  match cs.head? with
  | some '[' =>
      match "[CDATA[".toList.isPrefixOf? cs with
      | some content => scanCData content
      | none => .fault (.markup .unclosedCData)
  | some '-' =>
      match "--".toList.isPrefixOf? cs with
      | some content => scanComment content
      | none => .fault (.markup .unclosedComment)
  | some 'D' | some 'd' =>
      if (cs.take 7).map Char.toUpper = "DOCTYPE".toList then scanDoctype (cs.drop 7)
      else .fault (.markup .unclosedDoctype)
  | _ => .fault (.markup .unknownMarkup)

def scanBracket : List Char → Head
  | [] => .fault (.markup .unclosedTag)
  | '!' :: rest => scanBang rest
  | '?' :: rest => scanInstruction rest
  | '/' :: rest => scanTag (.endTag ∘ endName) rest
  | rest => scanTag startOrEmpty rest

def referenceStop (c : Char) : Bool := c == ';' || c == '&' || c == '<'

def scanReference (cs : List Char) : Head :=
  match cs.dropWhile (!referenceStop ·) with
  | ';' :: rest => .token (.leaf (.reference (.ofList (cs.takeWhile (!referenceStop ·))))) rest
  | _ => .fault (.illFormed .unclosedReference)

def textChar (c : Char) : Bool := c != '<' && c != '&'

def scanHead : List Char → Head
  | [] => .done
  | '<' :: rest => scanBracket rest
  | '&' :: rest => scanReference rest
  | cs => .token (.leaf (.text (.ofList (cs.takeWhile textChar)))) (cs.dropWhile textChar)

structure Scan where
  tokens : List Token
  fault : Option ReadError
  deriving DecidableEq, Repr

def run : Nat → List Token → List Char → Scan
  | 0, read, _ => ⟨read.reverse, none⟩
  | fuel + 1, read, cs =>
      match scanHead cs with
      | .done => ⟨read.reverse, none⟩
      | .fault error => ⟨read.reverse, some error⟩
      | .token token rest => run fuel (token :: read) rest

def scan (text : String) : Scan :=
  let cs := Text.afterByteOrderMark text.toList
  run (cs.length + 1) [] cs

end EdmxPruning.Markup
