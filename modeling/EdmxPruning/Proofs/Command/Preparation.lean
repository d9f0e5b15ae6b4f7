import EdmxPruning.Command.Run
import EdmxPruning.Proofs.Command.Requests
import EdmxPruning.Proofs.Pruning.Passes

/-! What the commands have in common. Each of them prepares in the same way: it finds out what is asked
for, loads the document and builds its graph. All that can fail but the writing fails there, the files
stay as they are, and what comes after only computes until there is something to write. -/
namespace EdmxPruning

namespace Work

variable {σ α β : Type}

def comesTo (work : Work σ α) (files : σ) : Except CommandError α × σ := (work.run.run files).value

theorem comesToBind (work : Work σ α) (next : α → Work σ β) (files : σ) :
    (work >>= next).comesTo files = match work.comesTo files with
      | (.error e, after) => (.error e, after)
      | (.ok a, after) => (next a).comesTo after := by
  unfold comesTo
  show (ExceptT.bindCont next (work.run.run files).value.1 (work.run.run files).value.2).value = _
  cases (work.run.run files).value with
  | mk result after => cases result <;> rfl

@[simp] theorem comesToPure (a : α) (files : σ) : (pure a : Work σ α).comesTo files = (.ok a, files) := rfl

@[simp] theorem comesToJob (job : Job α) (files : σ) :
    (ofJob job).comesTo files = (job.result, files) := rfl

@[simp] theorem comesToReading (storage : Storage σ) (job : Reader → Job α) (files : σ) :
    (reading storage job).comesTo files = ((job (storage.read files)).result, files) := rfl

@[simp] theorem comesToWriting (storage : Storage σ) (path text : String) (files : σ) :
    (writing storage path text).comesTo files =
      ((storage.write files path text).1.mapError (.output path), (storage.write files path text).2) := rfl

end Work

namespace Command

def inputPath : Command → String
  | .filter input _ _ _ | .closure input _ => input

def request : Command → Selection
  | .filter _ _ selection _ | .closure _ selection => selection

structure Prepared where
  names : List ShortName
  document : Document
  graph : NavigationGraph

def loaded (read : Reader) (input : String) : Except CommandError Document :=
  ((read input).mapError (CommandError.input input)).bind fun text =>
    (Document.parse text).mapError (CommandError.document input)

def prepare (read : Reader) (input : String) (selection : Selection) :
    Except CommandError Prepared :=
  (selection.requested read).result.bind fun names =>
    (loaded read input).bind fun document =>
      (document.navigation.mapError (CommandError.index input)).bind fun graph =>
        .ok ⟨names, document, graph⟩

namespace Prepared

def closure (p : Prepared) : Closure := (p.graph.closure p.names).value

def pruned (p : Prepared) : Pruned := (p.document.narrow p.graph p.closure).value

def shown (p : Prepared) (input : String) : List String :=
  ["Input file: " ++ input] ++ p.closure.lines ++ p.pruned.report.summary

end Prepared

theorem loadResult (read : Reader) (input : String) :
    (load input read).result = loaded read input := by
  unfold load loaded
  rw [Job.resultBind, Job.resultOfExcept]
  refine congrArg (Except.bind _) (funext fun text => ?_)
  rw [Job.resultBind, Job.resultOfExcept]
  cases Document.parse text <;> rfl

theorem pruneGraph (d : Document) (names : List ShortName) :
    d.prune names = d.navigation.map fun g => (do
      Logged.log g.events
      let closure ← g.closure names
      Logged.log [.closureComputed closure.requested.size closure.size]
      d.narrow g closure) := by
  unfold Document.prune
  cases d.navigation <;> rfl

section Processing

variable {σ : Type} (storage : Storage σ) (files : σ) (input output : String) (selection : Selection)

/- The two ways to the closure, through the graph alone and through pruning, are one. -/
theorem processClosure : (process storage (.closure input selection)).comesTo files =
    ((prepare (storage.read files) input selection).map fun p => p.closure.lines, files) := by
  simp only [process, prepare, Work.comesToBind, Work.comesToReading, Work.comesToJob, loadResult,
    Job.resultOfExcept, Job.resultLog, Job.resultLift, Work.comesToPure]
  cases (selection.requested (storage.read files)).result with
  | error e => rfl
  | ok names =>
    simp only [Except.bind]
    cases loaded (storage.read files) input with
    | error e => rfl
    | ok document =>
      simp only
      cases document.navigation <;> rfl

theorem processFilter (dryRun : Bool) :
    (process storage (.filter input output selection dryRun)).comesTo files =
      match prepare (storage.read files) input selection with
      | .error e => (.error e, files)
      | .ok p =>
          if dryRun then
            (.ok (p.shown input ++ ["Dry run: " ++ output ++ " has not been written"]), files)
          else
            let (written, after) := storage.write files output p.pruned.document.toXml
            ((written.mapError (.output output)).map fun _ =>
              p.shown input ++ [output ++ " file has been written"], after) := by
  simp only [process, prepare, Work.comesToBind, Work.comesToReading, Work.comesToJob, loadResult,
    Job.resultOfExcept]
  cases (selection.requested (storage.read files)).result with
  | error e => rfl
  | ok names =>
    simp only [Except.bind]
    cases loaded (storage.read files) input with
    | error e => rfl
    | ok document =>
      simp only [pruneGraph]
      cases document.navigation with
      | error e => rfl
      | ok graph =>
        cases dryRun with
        | true => rfl
        | false =>
          have comes (text : String) (lines : List String) :
              (do Work.writing storage output text; pure lines : Work σ (List String)).comesTo files =
                (((storage.write files output text).1.mapError (.output output)).map fun _ => lines,
                  (storage.write files output text).2) := by
            rw [Work.comesToBind, Work.comesToWriting]
            cases (storage.write files output text).1 <;> rfl
          exact comes ..

end Processing

theorem loadedParts {read : Reader} {input : String} {document : Document}
    (ok : loaded read input = .ok document) :
    ∃ text, read input = .ok text ∧ Document.parse text = .ok document := by
  obtain ⟨text, found, parsed⟩ := bindDone ok
  exact ⟨text, okOfMapError found, okOfMapError parsed⟩

theorem loadedOf {read : Reader} {input text : String} {document : Document}
    (found : read input = .ok text) (parsed : Document.parse text = .ok document) :
    loaded read input = .ok document := by
  unfold loaded
  rw [found]
  show (Document.parse text).mapError _ = _
  rw [parsed]
  rfl

structure PreparedFrom (read : Reader) (input : String) (selection : Selection) (p : Prepared) :
    Prop where
  names : (selection.requested read).result = .ok p.names
  document : loaded read input = .ok p.document
  graph : p.document.navigation = .ok p.graph

theorem preparedParts {read : Reader} {input : String} {selection : Selection} {p : Prepared}
    (ok : prepare read input selection = .ok p) : PreparedFrom read input selection p := by
  obtain ⟨names, asked, ok⟩ := bindDone ok
  obtain ⟨document, found, ok⟩ := bindDone ok
  obtain ⟨graph, built, same⟩ := bindDone ok
  cases same
  exact ⟨asked, found, okOfMapError built⟩

theorem preparedOf {read : Reader} {input : String} {selection : Selection} {p : Prepared}
    (parts : PreparedFrom read input selection p) : prepare read input selection = .ok p := by
  simp only [prepare, parts.names, parts.document, parts.graph, Except.bind]
  rfl

theorem requestedDirectly {read : Reader} {entities : List String} {name : ShortName}
    {names : List ShortName} (short : Selection.shortNames entities = name :: names) :
    (Selection.requested read ⟨entities, none, []⟩).result = .ok (name :: names) := by
  simp [Selection.requestedResult, Selection.profiled, short, Except.bind]

theorem preparedDirectly {read : Reader} {input text : String} {entities : List String} {name : ShortName}
    {names : List ShortName} {document : Document} {pruned : Logged Pruned}
    (short : Selection.shortNames entities = name :: names) (found : read input = .ok text)
    (parsed : Document.parse text = .ok document) (ok : document.prune (name :: names) = .ok pruned) :
    ∃ graph, prepare read input ⟨entities, none, []⟩ = .ok ⟨name :: names, document, graph⟩ := by
  obtain ⟨graph, built, _⟩ := Document.pruneParts ok
  exact ⟨graph, preparedOf ⟨requestedDirectly short, loadedOf found parsed, built⟩⟩

theorem preparesNoOutput {read : Reader} {input : String} {selection : Selection} {e : CommandError}
    (failed : prepare read input selection = .error e) (path : String) (fault : FileFault) :
    e ≠ .output path fault := by
  rintro rfl
  rcases bindFails failed with unasked | ⟨names, _, failed⟩
  · exact Selection.requestsNoOutput unasked path fault rfl
  rcases bindFails failed with unloaded | ⟨document, _, failed⟩
  · rcases bindFails unloaded with unread | ⟨text, _, unparsed⟩
    · obtain ⟨_, _, wrapped⟩ := faultOfMapError unread
      cases wrapped
    · obtain ⟨_, _, wrapped⟩ := faultOfMapError unparsed
      cases wrapped
  rcases bindFails failed with unbuilt | ⟨graph, _, failed⟩
  · obtain ⟨_, _, wrapped⟩ := faultOfMapError unbuilt
    cases wrapped
  · cases failed

theorem PreparedFrom.pruned {read : Reader} {input : String} {selection : Selection} {p : Prepared}
    (parts : PreparedFrom read input selection p) :
    ∃ logged, p.document.prune p.names = .ok logged ∧ logged.value = p.pruned := by
  rw [pruneGraph, parts.graph]
  exact ⟨_, rfl, rfl⟩

section Runs

variable {σ : Type} {storage : Storage σ} {files : σ} {input output : String} {selection : Selection}

theorem runComesTo (storage : Storage σ) (files : σ) (command : Command) :
    ((run storage files command).result, (run storage files command).files) =
      (process storage command).comesTo files := rfl

theorem runUnprepared {command : Command} {e : CommandError}
    (failed : prepare (storage.read files) command.inputPath command.request = .error e) :
    (run storage files command).result = .error e ∧ (run storage files command).files = files := by
  have comes : (process storage command).comesTo files = (.error e, files) := by
    cases command with
    | filter input output selection dryRun =>
      simp only [inputPath, request] at failed
      rw [processFilter, failed]
    | closure input selection =>
      simp only [inputPath, request] at failed
      rw [processClosure, failed]
      rfl
  exact Prod.mk.inj ((runComesTo storage files command).trans comes)

variable {p : Prepared} (ok : prepare (storage.read files) input selection = .ok p)
include ok

theorem runClosure : (run storage files (.closure input selection)).result = .ok p.closure.lines ∧
    (run storage files (.closure input selection)).files = files := by
  refine Prod.mk.inj ((runComesTo ..).trans ?_)
  rw [processClosure, ok]
  rfl

theorem runDry : (run storage files (.filter input output selection true)).result =
      .ok (p.shown input ++ ["Dry run: " ++ output ++ " has not been written"]) ∧
    (run storage files (.filter input output selection true)).files = files := by
  refine Prod.mk.inj ((runComesTo ..).trans ?_)
  rw [processFilter, ok]
  rfl

theorem runRefused {fault : FileFault} {after : σ}
    (refused : storage.write files output p.pruned.document.toXml = (.error fault, after)) :
    (run storage files (.filter input output selection false)).result = .error (.output output fault) ∧
      (run storage files (.filter input output selection false)).files = after := by
  refine Prod.mk.inj ((runComesTo ..).trans ?_)
  rw [processFilter, ok]
  simp only [Bool.false_eq_true, if_false, refused]
  rfl

theorem runWritten {after : σ}
    (done : storage.write files output p.pruned.document.toXml = (.ok (), after)) :
    (run storage files (.filter input output selection false)).result =
        .ok (p.shown input ++ [output ++ " file has been written"]) ∧
      (run storage files (.filter input output selection false)).files = after := by
  refine Prod.mk.inj ((runComesTo ..).trans ?_)
  rw [processFilter, ok]
  simp only [Bool.false_eq_true, if_false, done]
  rfl

end Runs

end Command
end EdmxPruning
