import EdmxPruning.Metadata.Kind
import EdmxPruning.Metadata.ShortName

/-! What a run reports about itself while it works, as data. Counts are numbers, all other fields
are texts. -/
namespace EdmxPruning

inductive Level where
  | warn
  | info
  | debug
  | trace
  deriving DecidableEq, Repr

namespace Level

def name : Level → String
  | .warn => "warn"
  | .info => "info"
  | .debug => "debug"
  | .trace => "trace"

def rank : Level → Nat
  | .warn => 0
  | .info => 1
  | .debug => 2
  | .trace => 3

def ofVerbosity : Nat → Level
  | 0 => .warn
  | 1 => .info
  | 2 => .debug
  | _ => .trace

def directive (level : Level) : String := "edmx_filter=" ++ level.name

end Level

inductive Field where
  | count (n : Nat)
  | text (s : String)
  deriving DecidableEq, Repr

def Field.shown : Field → String
  | .count n => toString n
  | .text s => s

inductive Event where
  | duplicateDefinition (name : ShortName)
  | indexBuilt (entityTypes associations : Nat)
  | unresolvedRelationship (entityType relationship : ShortName)
  | undefinedRequest (entityType : ShortName)
  | dependencyAdded (entityType source : ShortName)
  | closureComputed (requested kept : Nat)
  | emptyClosure
  | removed (kind : ElementKind) (name : String)
  | passDone (kind : ElementKind) (removed : Nat)
  | profileSelected (profile description : String) (entities : Nat)
  | documentLoaded (input : String)
  | dryRun (output : String)
  deriving DecidableEq, Repr

namespace Event

def level : Event → Level
  | .undefinedRequest _ | .emptyClosure => .warn
  | .closureComputed .. | .passDone .. | .documentLoaded _ | .dryRun _ => .info
  | .duplicateDefinition _ | .indexBuilt .. | .unresolvedRelationship .. | .dependencyAdded ..
  | .removed .. | .profileSelected .. => .debug

def message : Event → String
  | .duplicateDefinition _ => "duplicate definition, first one is indexed"
  | .indexBuilt .. => "schema index built"
  | .unresolvedRelationship .. => "relationship does not resolve to an association"
  | .undefinedRequest _ => "requested entity type is not defined in the document"
  | .dependencyAdded .. => "dependency added"
  | .closureComputed .. => "navigation closure computed"
  | .emptyClosure => "empty closure, every entity type is removed"
  | .removed .. => "removed"
  | .passDone .. => "filter pass done"
  | .profileSelected .. => "profile selected"
  | .documentLoaded _ => "document loaded"
  | .dryRun _ => "dry run, output is not written"

def fields : Event → List (String × Field)
  | .duplicateDefinition name => [("name", .text name.text)]
  | .indexBuilt entityTypes associations =>
      [("entity_types", .count entityTypes), ("associations", .count associations)]
  | .unresolvedRelationship entityType relationship =>
      [("entity_type", .text entityType.text), ("relationship", .text relationship.text)]
  | .undefinedRequest entityType => [("entity_type", .text entityType.text)]
  | .dependencyAdded entityType source =>
      [("entity_type", .text entityType.text), ("from", .text source.text)]
  | .closureComputed requested kept => [("requested", .count requested), ("kept", .count kept)]
  | .emptyClosure => []
  | .removed kind name => [("kind", .text kind.localName), ("name", .text name)]
  | .passDone kind n => [("kind", .text kind.localName), ("removed", .count n)]
  | .profileSelected profile description entities =>
      [("profile", .text profile), ("description", .text description),
       ("entities", .count entities)]
  | .documentLoaded input => [("input", .text input)]
  | .dryRun output => [("output", .text output)]

def line (e : Event) : String :=
  " ".intercalate ([e.level.name, e.message] ++ e.fields.map fun (key, value) =>
    key ++ "=" ++ value.shown)

def upTo (level : Level) (events : List Event) : List Event :=
  events.filter fun e => e.level.rank ≤ level.rank

end Event

end EdmxPruning
