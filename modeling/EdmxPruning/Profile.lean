import EdmxPruning.Journal.Logged
import EdmxPruning.Toml.Read

/-! Named groups of entity types, kept in a manifest. Of profiles with the same name the first one
is meant. -/
namespace EdmxPruning
open Toml

structure Profile where
  name : String
  description? : Option String
  entities : List String
  deriving DecidableEq, Repr

structure Manifest where
  profiles : List Profile
  deriving DecidableEq, Repr

def Toml.Value.text? : Value → Option String
  | .string s => some s
  | _ => none

def Toml.Value.texts? : Value → Option (List String)
  | .array _ items => items.mapM Value.text?
  | _ => none

namespace Profile

def ofTable? (t : Table) : Option Profile := do
  let name ← (← t.get? "name").text?
  let description? ← match t.get? "description" with
    | none => some none
    | some value => value.text?.map some
  let entities ← (← t.get? "entities").texts?
  some { name, description?, entities }

/-- A profile is a table, or its values in the order of the fields. More entries of a table are
read and ignored; more values in an array are not even read. -/
def ofValue? : Value → Option Profile
  | .table _ entries => if entriesReadable entries then ofTable? entries else none
  | .array _ (name :: description :: entities :: _) => do
      let name ← name.text?
      let description ← description.text?
      let entities ← entities.texts?
      some { name, description? := some description, entities }
  | _ => none

def event (p : Profile) : Event :=
  .profileSelected p.name (p.description?.getD "") p.entities.length

end Profile

namespace Manifest

def ofTable? (t : Table) : Option Manifest :=
  if !t.all (fun (key, value) => key == "profiles" || value.isReadable) then none
  else match t.get? "profiles" with
    | none => some ⟨[]⟩
    | some (.array _ items) => (items.mapM Profile.ofValue?).map Manifest.mk
    | some _ => none

def parse? (text : String) : Option Manifest := (Toml.parse? text).bind ofTable?

def find? (m : Manifest) (name : String) : Option Profile := m.profiles.find? (·.name == name)

/-- The entities of the named profiles in order, or the first name that no profile has. -/
def entitiesOf (m : Manifest) : List String → Logged (Except String (List String))
  | [] => pure (.ok [])
  | name :: rest =>
      match m.find? name with
      | none => pure (.error name)
      | some profile => do
          Logged.log [profile.event]
          let later ← m.entitiesOf rest
          pure (later.map (profile.entities ++ ·))

end Manifest
end EdmxPruning
