import EdmxPruning.Text

/-! Integers and floating-point numbers. Underscores stand between digits only, and a decimal
number does not start with a needless zero. A numeral that keeps to this may still denote nothing:
it is too large, or its digits are missing or mixed with letters. -/
namespace EdmxPruning.Toml
open Text (number? digitValue?)

def isHexDigit (c : Char) : Bool := (digitValue? 16 c).isSome

/-- Whether each underscore stands between digits, the text being preceded by the given one. -/
def separated (digit : Char → Bool) : Char → List Char → Bool
  | _, [] => true
  | before, '_' :: rest => digit before && rest.head?.any digit && separated digit '_' rest
  | _, c :: rest => separated digit c rest

def withoutSeparators (cs : List Char) : List Char := cs.filter (· != '_')

def decimal? (cs : List Char) : Option Nat :=
  let digits := withoutSeparators cs
  if cs.head? = some '0' ∧ 1 < digits.length then none else number? 10 digits

def unsigned : List Char → Bool × List Char
  | '+' :: rest => (false, rest)
  | '-' :: rest => (true, rest)
  | cs => (false, cs)

def wellSeparated (digit : Char → Bool) (cs : List Char) : Bool :=
  separated digit '_' (unsigned cs).2

def radix? : List Char → Option (Nat × List Char)
  | '0' :: 'x' :: digits => some (16, digits)
  | '0' :: 'o' :: digits => some (8, digits)
  | '0' :: 'b' :: digits => some (2, digits)
  | _ => none

/-- Integers of up to 128 bits, signed or not, can be told apart by a reader; others are refused. -/
def representable (n : Int) : Bool := -Int.ofNat (Nat.pow 2 127) ≤ n && n < Int.ofNat (Nat.pow 2 128)

def anyInteger? (cs : List Char) : Option Int :=
  match radix? cs with
  | some (base, digits) =>
      if separated isHexDigit '_' digits then
        (number? base (withoutSeparators digits)).map Int.ofNat
      else none
  | none =>
      let (negative, digits) := unsigned cs
      if wellSeparated Char.isDigit cs then
        (decimal? digits).map fun n => if negative then -Int.ofNat n else Int.ofNat n
      else none

def integer? (cs : List Char) : Option Int := (anyInteger? cs).filter representable

/-- The least number that rounds to infinity in double precision. -/
def infinityBound : Nat := Nat.pow 2 1024 - Nat.pow 2 970

def isFinite (mantissa : Nat) (exponent : Int) : Bool :=
  let magnitude := (Nat.repr mantissa).length + exponent
  if mantissa = 0 ∨ magnitude < 309 then true
  else if magnitude > 309 then false
  else match exponent with
    | .ofNat e => mantissa * Nat.pow 10 e < infinityBound
    | .negSucc e => mantissa < infinityBound * Nat.pow 10 (e + 1)

def isExponentMark (c : Char) : Bool := c == 'e' || c == 'E'

def exponent? : List Char → Option Int
  | [] => some 0
  | _ :: rest =>
      let (negative, digits) := unsigned rest
      (number? 10 (withoutSeparators digits)).map fun n =>
        if negative then -Int.ofNat n else Int.ofNat n

def fraction? : List Char → Option (List Char)
  | [] => some []
  | _ :: rest => (some (withoutSeparators rest)).filter fun digits => (number? 10 digits).isSome

/-- The digits of a floating-point numeral as one number, and the power of ten that scales it. -/
def float? (cs : List Char) : Option (Nat × Int) :=
  let digits := (unsigned cs).2
  let significand := digits.takeWhile (!isExponentMark ·)
  let tail := digits.dropWhile (!isExponentMark ·)
  let whole := significand.takeWhile (· != '.')
  let point := significand.dropWhile (· != '.')
  if point.isEmpty && tail.isEmpty || !wellSeparated Char.isDigit cs then none
  else do
    let n ← decimal? whole
    let fraction ← fraction? point
    let exponent ← exponent? tail
    let mantissa := n * Nat.pow 10 fraction.length + (number? 10 fraction).getD 0
    some (mantissa, exponent - fraction.length)

def isFloat (cs : List Char) : Bool :=
  let digits := (unsigned cs).2
  digits = "inf".toList ∨ digits = "nan".toList ∨
    (float? cs).any fun (mantissa, exponent) => isFinite mantissa exponent

/-- A decimal integer with underscores is held only to having digits beside them, where the letters
of hexadecimal digits will do, and to having no blank, point or exponent. -/
def isMixed (cs : List Char) : Bool :=
  let digits := (unsigned cs).2
  digits.head? != some '0' && (digits.dropWhile Char.isDigit).head? == some '_' &&
    !digits.any (fun c => c == ' ' || c == '.' || isExponentMark c) && wellSeparated isHexDigit cs

def isNumeral (cs : List Char) : Bool :=
  (anyInteger? cs).isSome || (float? cs).isSome || (radix? cs).any (·.2.isEmpty) || isMixed cs

end EdmxPruning.Toml
