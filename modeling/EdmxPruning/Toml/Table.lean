/-! Values of a configuration and the rules by which its lines build up tables. How a table came
about decides who may still add to it: inline tables are closed, dotted keys add only to tables
that dotted keys made, and a header opens a table once. A numeral that denotes nothing is an
unreadable value; it does no harm where nobody reads it. -/
namespace EdmxPruning.Toml

inductive Origin where
  | inline
  | implicit
  | dotted
  | header
  deriving DecidableEq, Repr

inductive Value where
  | string (s : String)
  | integer (n : Int)
  | float (written : String)
  | boolean (b : Bool)
  | moment (written : String)
  | unreadable (written : String)
  | array (ofTables : Bool) (items : List Value)
  | table (origin : Origin) (entries : List (String × Value))
  deriving Repr

abbrev Table := List (String × Value)

mutual
def Value.isReadable : Value → Bool
  | .unreadable _ => false
  | .array _ items => itemsReadable items
  | .table _ entries => entriesReadable entries
  | _ => true

def itemsReadable : List Value → Bool
  | [] => true
  | item :: rest => item.isReadable && itemsReadable rest

def entriesReadable : List (String × Value) → Bool
  | [] => true
  | (_, value) :: rest => value.isReadable && entriesReadable rest
end

namespace Table

def get? (t : Table) (key : String) : Option Value := t.lookup key

def alter? (key : String) (change : Option Value → Option Value) : Table → Option Table
  | [] => (change none).map fun v => [(key, v)]
  | (k, v) :: rest =>
      if k = key then (change (some v)).map fun v => (k, v) :: rest
      else (alter? key change rest).map ((k, v) :: ·)

def opensTo (dotted : Bool) : Origin → Bool
  | .inline => false
  | .header => !dotted
  | .implicit | .dotted => true

/-- Changes the table at the end of a path, making the tables that are missing on the way. A path
leads into the last table of an array of tables. -/
def within? (dotted : Bool) (change : Origin → Table → Option Table) :
    List String → Origin → Table → Option Table
  | [], origin, t => change origin t
  | key :: path, _, t =>
      t.alter? key fun
        | none =>
            let origin := if dotted then .dotted else .implicit
            (within? dotted change path origin []).map (.table origin)
        | some (.table origin entries) =>
            if opensTo dotted origin then
              (within? dotted change path origin entries).map (.table origin)
            else none
        | some (.array true items) =>
            match items.getLast? with
            | some (.table origin entries) =>
                (within? dotted change path origin entries).map fun entries =>
                  .array true (items.dropLast ++ [.table origin entries])
            | _ => none
        | some _ => none

/-- Adds a value under a new key. A path of dotted keys must end in a table of its own making. -/
def add? (path : List String) (key : String) (value : Value) (origin : Origin) (t : Table) :
    Option Table :=
  within? true (fun origin t =>
    if (origin == .dotted) == path.isEmpty then none
    else t.alter? key fun
      | none => some value
      | some _ => none) path origin t

def openTable? (path : List String) (key : String) (t : Table) : Option Table :=
  within? false (fun _ t => t.alter? key fun
    | none => some (.table .header [])
    | some (.table .implicit entries) => some (.table .header entries)
    | some _ => none) path .header t

def openArrayTable? (path : List String) (key : String) (t : Table) : Option Table :=
  within? false (fun _ t => t.alter? key fun
    | none => some (.array true [.table .header []])
    | some (.array true items) => some (.array true (items ++ [.table .header []]))
    | some _ => none) path .header t

end Table
end EdmxPruning.Toml
