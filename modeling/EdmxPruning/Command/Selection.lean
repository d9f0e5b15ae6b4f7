import EdmxPruning.Profile
import EdmxPruning.Markup.Fault
import EdmxPruning.Metadata.Sections
import EdmxPruning.Command.Storage

/-! Which entity types a command is asked for: those named directly, then those of the named
profiles. Names that are empty in their short form ask for nothing. -/
namespace EdmxPruning

inductive ManifestFault where
  | file (fault : FileFault)
  | format
  deriving DecidableEq, Repr

inductive CommandError where
  | noEntitiesRequested
  | unknownProfile (name : String)
  | manifest (path : String) (fault : ManifestFault)
  | input (path : String) (fault : FileFault)
  | document (path : String) (error : Markup.ReadError)
  | index (path : String) (error : SectionError)
  | output (path : String) (fault : FileFault)
  deriving DecidableEq, Repr

def ManifestFault.message : ManifestFault → String
  | .file fault => "input/output error: " ++ fault.message
  | .format => "profile manifest format error"

def CommandError.message : CommandError → String
  | .noEntitiesRequested => "at least one entity type must be requested"
  | .unknownProfile name => "unknown profile: " ++ name
  | .manifest path fault => "profile manifest error: file: " ++ path ++ ": " ++ fault.message
  | .input path fault => "input/output error: file: " ++ path ++ ": " ++ fault.message
  | .document path error => "document error: file: " ++ path ++ ": " ++ error.message
  | .index path error => "metadata structure error: file: " ++ path ++ ": " ++ error.message
  | .output path fault => "failed write output file: " ++ path ++ ": " ++ fault.message

/-- Work that logs and may fail; what was logged before a failure stays logged. -/
abbrev Job := ExceptT CommandError Logged

namespace Job

def ofExcept {α : Type} (result : Except CommandError α) : Job α := ExceptT.mk (pure result)

def log (events : List Event) : Job Unit := ExceptT.lift (Logged.log events)

end Job

structure Selection where
  entities : List String
  profile? : Option String
  features : List String
  deriving DecidableEq, Repr

namespace Selection

def manifest (read : Reader) (path : String) : Except CommandError Manifest :=
  match read path with
  | .error fault => .error (.manifest path (.file fault))
  | .ok text =>
      match Manifest.parse? text with
      | none => .error (.manifest path .format)
      | some manifest => .ok manifest

/-- Features count only where a manifest is given. -/
def fromProfiles (read : Reader) (s : Selection) : Job (List String) :=
  match s.profile? with
  | none => pure []
  | some path => do
      let manifest ← Job.ofExcept (manifest read path)
      ExceptT.mk ((manifest.entitiesOf s.features).map (·.mapError .unknownProfile))

def shortNames (references : List String) : List ShortName :=
  (references.map ShortName.ofReference).filter (·.text ≠ "")

def requested (read : Reader) (s : Selection) : Job (List ShortName) := do
  let listed ← s.fromProfiles read
  match shortNames (s.entities ++ listed) with
  | [] => throw .noEntitiesRequested
  | names => pure names

end Selection
end EdmxPruning
