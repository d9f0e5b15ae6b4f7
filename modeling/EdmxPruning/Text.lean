/-! Characters and texts. Blank characters are those with the Unicode property White_Space. A
qualified name has segments with a mark between them, and only the last mark counts: what stands
after it is the name proper, what stands before it the qualifier. -/
namespace EdmxPruning.Text

def blankRanges : List (Nat × Nat) :=
  [(0x09, 0x0d), (0x20, 0x20), (0x85, 0x85), (0xa0, 0xa0), (0x1680, 0x1680), (0x2000, 0x200a),
   (0x2028, 0x2029), (0x202f, 0x202f), (0x205f, 0x205f), (0x3000, 0x3000)]

def blankChar (c : Char) : Bool :=
  blankRanges.any fun (low, high) => low ≤ c.toNat && c.toNat ≤ high

def isBlank (text : String) : Bool := text.toList.all blankChar

def trimStart (cs : List Char) : List Char := cs.dropWhile blankChar
def trimEnd (cs : List Char) : List Char := (cs.reverse.dropWhile blankChar).reverse
def trim (cs : List Char) : List Char := trimEnd (trimStart cs)

/-- A text may start with one byte order mark, which is not part of what it says. -/
def afterByteOrderMark : List Char → List Char
  | '\uFEFF' :: rest => rest
  | cs => cs

def afterLast (mark : Char) (cs : List Char) : List Char :=
  (cs.reverse.takeWhile (· != mark)).reverse

def beforeLast (mark : Char) (cs : List Char) : List Char :=
  match cs.reverse.dropWhile (· != mark) with
  | [] => []
  | _ :: earlier => earlier.reverse

def digitValue? (base : Nat) (c : Char) : Option Nat :=
  let value :=
    if '0' ≤ c ∧ c ≤ '9' then c.toNat - '0'.toNat
    else if 'a' ≤ c ∧ c ≤ 'f' then c.toNat - 'a'.toNat + 10
    else if 'A' ≤ c ∧ c ≤ 'F' then c.toNat - 'A'.toNat + 10
    else base
  if value < base then some value else none

def number? (base : Nat) (digits : List Char) : Option Nat :=
  if digits.isEmpty then none
  else digits.foldlM (fun n c => (digitValue? base c).map (n * base + ·)) 0

/-- Surrogates and numbers beyond the last plane are no characters. -/
def character? (n : Nat) : Option Char :=
  if h : n.isValidChar then some (Char.ofNatAux n h) else none

end EdmxPruning.Text
