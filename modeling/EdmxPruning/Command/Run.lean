import EdmxPruning.Command.Selection
import EdmxPruning.Document.Xml
import EdmxPruning.Pruning.Run

/-! The two commands. Filtering prunes a document and writes it, a dry run only says what would
happen; the closure command lists what would be kept. -/
namespace EdmxPruning

inductive Command where
  | filter (input output : String) (selection : Selection) (dryRun : Bool)
  | closure (input : String) (selection : Selection)
  deriving DecidableEq, Repr

/-- Work on files that it may change. What was logged and written before a failure stays so. -/
abbrev Work (σ : Type) := ExceptT CommandError (StateT σ Logged)

namespace Work

variable {σ α : Type}

def ofJob (job : Job α) : Work σ α := ExceptT.mk fun files => job.run.map (·, files)

def reading (storage : Storage σ) (job : Reader → Job α) : Work σ α :=
  ExceptT.mk fun files => ofJob (job (storage.read files)) files

def writing (storage : Storage σ) (path text : String) : Work σ Unit :=
  ExceptT.mk fun files =>
    let (written, after) := storage.write files path text
    pure (written.mapError (.output path), after)

end Work

namespace Command

def load (path : String) (read : Reader) : Job Document := do
  let text ← Job.ofExcept ((read path).mapError (.input path))
  let document ← Job.ofExcept ((Document.parse text).mapError (.document path))
  Job.log [.documentLoaded path]
  pure document

variable {σ : Type}

def process (storage : Storage σ) : Command → Work σ (List String)
  | .filter input output selection dryRun => do
      let names ← Work.reading storage selection.requested
      let document ← Work.reading storage (load input)
      let logged ← Work.ofJob (Job.ofExcept ((document.prune names).mapError (.index input)))
      let pruned ← Work.ofJob (ExceptT.lift logged)
      let lines := ["Input file: " ++ input] ++ pruned.closure.lines ++ pruned.report.summary
      if dryRun then
        Work.ofJob (Job.log [.dryRun output])
        pure (lines ++ ["Dry run: " ++ output ++ " has not been written"])
      else
        Work.writing storage output pruned.document.toXml
        pure (lines ++ [output ++ " file has been written"])
  | .closure input selection => do
      let names ← Work.reading storage selection.requested
      let document ← Work.reading storage (load input)
      let graph ← Work.ofJob (Job.ofExcept (document.navigation.mapError (.index input)))
      Work.ofJob (Job.log graph.events)
      let closure ← Work.ofJob (ExceptT.lift (graph.closure names))
      pure closure.lines

def inputs : Command → List String
  | .filter input _ selection _ | .closure input selection => selection.profile?.toList ++ [input]

structure Outcome (σ : Type) where
  events : List Event
  result : Except CommandError (List String)
  files : σ

def run (storage : Storage σ) (files : σ) (command : Command) : Outcome σ :=
  let done := (command.process storage).run.run files
  ⟨done.events, done.value.1, done.value.2⟩

end Command
end EdmxPruning
