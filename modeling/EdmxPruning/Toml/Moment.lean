import EdmxPruning.Text

/-! Dates, times of day and both together, with or without an offset. Seconds may be left out. -/
namespace EdmxPruning.Toml
open Text (number?)

def fixed? (width low high : Nat) (cs : List Char) : Option (Nat × List Char) :=
  if cs.length < width then none
  else ((number? 10 (cs.take width)).filter fun n => low ≤ n && n ≤ high).map fun n =>
    (n, cs.drop width)

def expect? (mark : Char) : List Char → Option (List Char)
  | c :: rest => if c = mark then some rest else none
  | [] => none

def isLeapYear (year : Nat) : Bool := year % 4 == 0 && (year % 100 != 0 || year % 400 == 0)

def daysIn (year month : Nat) : Nat :=
  if month = 2 then (if isLeapYear year then 29 else 28)
  else if month = 4 ∨ month = 6 ∨ month = 9 ∨ month = 11 then 30
  else 31

def afterDate? (cs : List Char) : Option (List Char) := do
  let (year, rest) ← fixed? 4 0 9999 cs
  let (month, rest) ← fixed? 2 1 12 (← expect? '-' rest)
  let (_, rest) ← fixed? 2 1 (daysIn year month) (← expect? '-' rest)
  some rest

def afterFraction? : List Char → Option (List Char)
  | '.' :: rest =>
      if (rest.takeWhile Char.isDigit).isEmpty then none else some (rest.dropWhile Char.isDigit)
  | cs => some cs

/-- A minute may end with a leap second. -/
def afterSeconds? : List Char → Option (List Char)
  | ':' :: rest => do
      let (_, rest) ← fixed? 2 0 60 rest
      afterFraction? rest
  | cs => some cs

def afterTime? (cs : List Char) : Option (List Char) := do
  let (_, rest) ← fixed? 2 0 23 cs
  let (_, rest) ← fixed? 2 0 59 (← expect? ':' rest)
  afterSeconds? rest

def isOffset : List Char → Bool
  | [] | ['Z'] | ['z'] => true
  | sign :: rest =>
      (sign == '+' || sign == '-') &&
        match fixed? 2 0 23 rest with
        | some (_, ':' :: minutes) => (fixed? 2 0 59 minutes).any (·.2.isEmpty)
        | _ => false

def isTimeMark (c : Char) : Bool := c == 'T' || c == 't' || c == ' '

def isMoment (cs : List Char) : Bool :=
  match afterDate? cs with
  | some [] => true
  | some (mark :: time) => isTimeMark mark && (afterTime? time).any isOffset
  | none => (afterTime? cs).any List.isEmpty

end EdmxPruning.Toml
