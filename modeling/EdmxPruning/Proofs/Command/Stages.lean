import EdmxPruning.Proofs.Command.Preparation
import EdmxPruning.Proofs.Command.Storage
import EdmxPruning.Proofs.Document.Removal

/-! The stages of a command. Each of them is judged on its own, by what the files hold before the run, and
several may fail for one command; a run reports the first of them in their order, and writes nothing unless
none fails. -/
namespace EdmxPruning

def fault? {ε α : Type} : Except ε α → Option ε
  | .error e => some e
  | .ok _ => none

inductive Stage where
  | manifestReading
  | manifestParsing
  | featureLookup
  | request
  | inputReading
  | inputParsing
  | containerSearch
  | schemaSearch
  | outputWriting
  deriving DecidableEq, Repr

namespace Selection

def manifest? (read : Reader) (s : Selection) : Option Manifest :=
  s.profile?.bind fun path => (read path).toOption.bind Manifest.parse?

def names (read : Reader) (s : Selection) : List ShortName :=
  shortNames (s.entities ++ ((s.manifest? read).map fun m => s.features.flatMap m.entitiesNamed).getD [])

end Selection

namespace Command

def document? (read : Reader) (c : Command) : Option Document :=
  (read c.inputPath).toOption.bind fun text => (Document.parse text).toOption

def pruned? (read : Reader) (c : Command) : Option Document :=
  (document? read c).bind fun d =>
    (d.prune (c.request.names read)).toOption.map fun pruned => pruned.value.document

def output? : Command → Option String
  | .filter _ output _ false => some output
  | .filter _ _ _ true | .closure _ _ => none

end Command

namespace Stage
open Command

def ordered : List Stage :=
  [manifestReading, manifestParsing, featureLookup, request, inputReading, inputParsing,
    containerSearch, schemaSearch, outputWriting]

variable {σ : Type}

def failure? (storage : Storage σ) (files : σ) (c : Command) : Stage → Option CommandError
  | manifestReading => c.request.profile?.bind fun path =>
      (fault? (storage.read files path)).map fun fault => .manifest path (.file fault)
  | manifestParsing => c.request.profile?.bind fun path =>
      (storage.read files path).toOption.bind fun text =>
        if Manifest.parse? text = none then some (.manifest path .format) else none
  | featureLookup => (c.request.manifest? (storage.read files)).bind fun m =>
      (c.request.features.find? m.lacks).map .unknownProfile
  | request => if c.request.names (storage.read files) = [] then some .noEntitiesRequested else none
  | inputReading => (fault? (storage.read files c.inputPath)).map (.input c.inputPath)
  | inputParsing => (storage.read files c.inputPath).toOption.bind fun text =>
      (fault? (Document.parse text)).map (.document c.inputPath)
  | containerSearch => (document? (storage.read files) c).bind fun d =>
      if d.find .entityContainer none = [] then some (.index c.inputPath .containerNotFound) else none
  | schemaSearch => (document? (storage.read files) c).bind fun d =>
      if d.find .schema none = [] then some (.index c.inputPath .schemaNotFound) else none
  | outputWriting => c.output?.bind fun path => (pruned? (storage.read files) c).bind fun d =>
      (fault? (storage.write files path d.toXml).1).map (.output path)

/- Two steps fail like the stages of the first one followed by those of the second, which need to be right
only where the first one succeeds. -/
theorem chain {ε α β : Type} {x : Except ε α} {f : α → Except ε β} {failure : Stage → Option ε}
    (first second : List Stage) (own : fault? x = first.findSome? failure)
    (next : ∀ a, x = .ok a → fault? (f a) = second.findSome? failure) :
    fault? (x.bind f) = (first ++ second).findSome? failure := by
  rw [List.findSome?_append, ← own]
  cases x with
  | error e => rfl
  | ok a => exact next a rfl

section Preparing

variable {storage : Storage σ} {files : σ} {c : Command}

theorem manifestFails {path : String} (given : c.request.profile? = some path) :
    fault? (Selection.manifest (storage.read files) path) =
      [manifestReading, manifestParsing].findSome? (failure? storage files c) := by
  simp only [List.findSome?, failure?, given, Option.bind_some, Selection.manifest]
  cases storage.read files path with
  | error fault => rfl
  | ok text =>
    simp only [Except.toOption, Option.bind_some]
    cases Manifest.parse? text <;> rfl

theorem manifestFound {path : String} {m : Manifest} (given : c.request.profile? = some path)
    (ok : Selection.manifest (storage.read files) path = .ok m) :
    c.request.manifest? (storage.read files) = some m := by
  unfold Selection.manifest at ok
  simp only [Selection.manifest?, given, Option.bind_some]
  cases found : storage.read files path with
  | error fault => rw [found] at ok; cases ok
  | ok text =>
    simp only [found, Except.toOption, Option.bind_some] at ok ⊢
    cases read : Manifest.parse? text with
    | none => rw [read] at ok; cases ok
    | some own => rw [read] at ok; cases ok; rfl

theorem profileFails : fault? (c.request.profiled (storage.read files)) =
    [manifestReading, manifestParsing, featureLookup].findSome? (failure? storage files c) := by
  unfold Selection.profiled
  cases given : c.request.profile? with
  | none => simp [Selection.manifest?, given, failure?, fault?]
  | some path =>
    refine chain [manifestReading, manifestParsing] [featureLookup] (manifestFails given)
      fun m found => ?_
    simp only [List.findSome?, failure?, manifestFound given found, Option.bind_some]
    cases c.request.features.find? m.lacks <;> rfl

theorem profileNames {listed : List String} (ok : c.request.profiled (storage.read files) = .ok listed) :
    c.request.names (storage.read files) = Selection.shortNames (c.request.entities ++ listed) := by
  unfold Selection.profiled at ok
  cases given : c.request.profile? with
  | none =>
    simp only [given] at ok
    cases ok
    simp [Selection.names, Selection.manifest?, given]
  | some path =>
    simp only [given] at ok
    obtain ⟨m, found, ok⟩ := bindDone ok
    split at ok
    · cases ok
    · cases ok
      simp [Selection.names, manifestFound given found]

theorem requestFails : fault? (c.request.requested (storage.read files)).result =
    [manifestReading, manifestParsing, featureLookup, request].findSome? (failure? storage files c) := by
  rw [Selection.requestedResult]
  refine chain [manifestReading, manifestParsing, featureLookup] [request] profileFails
    fun listed ok => ?_
  simp only [List.findSome?, failure?, profileNames ok]
  split <;> rfl

theorem requestNames {names : List ShortName}
    (ok : (c.request.requested (storage.read files)).result = .ok names) :
    c.request.names (storage.read files) = names := by
  rw [Selection.requestedResult] at ok
  obtain ⟨listed, found, ok⟩ := bindDone ok
  split at ok
  · cases ok
  · cases ok
    exact profileNames found

theorem loadFails : fault? (loaded (storage.read files) c.inputPath) =
    [inputReading, inputParsing].findSome? (failure? storage files c) := by
  refine chain [inputReading] [inputParsing] ?_ fun text ok => ?_
  · simp only [List.findSome?, failure?]
    cases storage.read files c.inputPath <;> rfl
  · simp only [List.findSome?, failure?, okOfMapError ok, Except.toOption, Option.bind_some]
    cases Document.parse text <;> rfl

theorem loadDocument {d : Document} (ok : loaded (storage.read files) c.inputPath = .ok d) :
    document? (storage.read files) c = some d := by
  obtain ⟨text, found, parsed⟩ := loadedParts ok
  simp [document?, found, parsed, Except.toOption]

theorem searchFails {d : Document} (found : document? (storage.read files) c = some d) :
    fault? (d.navigation.mapError (CommandError.index c.inputPath)) =
      [containerSearch, schemaSearch].findSome? (failure? storage files c) := by
  simp only [List.findSome?, failure?, found, Option.bind_some]
  unfold Document.navigation Document.sections
  cases d.find .entityContainer none with
  | nil => rfl
  | cons container containers =>
    cases d.find .schema none <;> rfl

theorem prepareFails : fault? (prepare (storage.read files) c.inputPath c.request) =
    ordered.dropLast.findSome? (failure? storage files c) :=
  chain [manifestReading, manifestParsing, featureLookup, request]
    [inputReading, inputParsing, containerSearch, schemaSearch] requestFails fun _ _ =>
      chain [inputReading, inputParsing] [containerSearch, schemaSearch] loadFails fun _ found =>
        chain [containerSearch, schemaSearch] [] (searchFails (loadDocument found)) fun _ _ => rfl

theorem prepareDone {p : Prepared} (ok : prepare (storage.read files) c.inputPath c.request = .ok p) :
    document? (storage.read files) c = some p.document ∧ c.request.names (storage.read files) = p.names ∧
      pruned? (storage.read files) c = some p.pruned.document := by
  have parts := preparedParts ok
  have found := loadDocument parts.document
  have asked := requestNames parts.names
  obtain ⟨logged, pruned, same⟩ := parts.pruned
  refine ⟨found, asked, ?_⟩
  simp [pruned?, found, asked, pruned, same, Except.toOption]

/- The ways in which a command ends that has all it needs: it had nothing to write, or the write failed, or
it was done. -/
theorem endings {p : Prepared} (ok : prepare (storage.read files) c.inputPath c.request = .ok p) :
    let outcome := run storage files c
    (c.output? = none ∧ (∃ lines, outcome.result = .ok lines) ∧ outcome.files = files) ∨
    ∃ output, c.output? = some output ∧
      ((∃ fault, storage.write files output p.pruned.document.toXml = (.error fault, outcome.files) ∧
          outcome.result = .error (.output output fault)) ∨
        ∃ lines, storage.write files output p.pruned.document.toXml = (.ok (), outcome.files) ∧
          outcome.result = .ok lines) := by
  intro outcome
  cases c with
  | closure input selection =>
    change prepare (storage.read files) input selection = .ok p at ok
    obtain ⟨result, still⟩ := runClosure ok
    exact .inl ⟨rfl, ⟨_, result⟩, still⟩
  | filter input output selection dryRun =>
    change prepare (storage.read files) input selection = .ok p at ok
    cases dryRun with
    | true =>
      obtain ⟨result, still⟩ := runDry ok
      exact .inl ⟨rfl, ⟨_, result⟩, still⟩
    | false =>
      refine .inr ⟨output, rfl, ?_⟩
      cases wrote : storage.write files output p.pruned.document.toXml with
      | mk written after =>
        cases written with
        | error fault =>
          obtain ⟨result, changed⟩ := runRefused ok wrote
          exact .inl ⟨fault, by rw [changed], result⟩
        | ok =>
          obtain ⟨result, changed⟩ := runWritten ok wrote
          exact .inr ⟨_, by rw [changed], result⟩

end Preparing

theorem runFails (storage : Storage σ) (files : σ) (c : Command) :
    fault? (run storage files c).result = ordered.findSome? (failure? storage files c) := by
  have split : ordered = ordered.dropLast ++ [outputWriting] := rfl
  rw [split, List.findSome?_append, ← prepareFails]
  cases prepared : prepare (storage.read files) c.inputPath c.request with
  | error e => rw [(runUnprepared prepared).1]; rfl
  | ok p =>
    simp only [fault?, Option.none_or, List.findSome?, failure?, (prepareDone prepared).2.2]
    rcases endings prepared with ⟨idle, ⟨lines, result⟩, _⟩ | ⟨output, writing, ends⟩
    · rw [idle, result]
      rfl
    rw [writing]
    rcases ends with ⟨fault, wrote, result⟩ | ⟨lines, wrote, result⟩
    · rw [result, Option.bind_some, Option.bind_some, wrote]
      rfl
    · rw [result, Option.bind_some, Option.bind_some, wrote]
      rfl

end Stage

namespace Command

variable {σ : Type} {storage : Storage σ} {files : σ} {c : Command}

theorem runWrites {output : String} {lines : List String} (writes : c.output? = some output)
    (done : (run storage files c).result = .ok lines) :
    ∃ text document pruned,
      storage.read files c.inputPath = .ok text ∧ Document.parse text = .ok document ∧
      document.prune (c.request.names (storage.read files)) = .ok pruned ∧
      storage.write files output pruned.value.document.toXml = (.ok (), (run storage files c).files) := by
  cases prepared : prepare (storage.read files) c.inputPath c.request with
  | error e =>
    rw [(runUnprepared prepared).1] at done
    cases done
  | ok p =>
    rcases Stage.endings prepared with ⟨idle, _⟩ | ⟨own, writing, ⟨fault, _, failed⟩ | ⟨_, wrote, _⟩⟩
    · cases writes.symm.trans idle
    · cases done.symm.trans failed
    cases writes.symm.trans writing
    have parts := preparedParts prepared
    obtain ⟨text, found, parsed⟩ := loadedParts parts.document
    obtain ⟨pruned, ok, value⟩ := parts.pruned
    refine ⟨text, p.document, pruned, found, parsed, ?_, ?_⟩
    · rw [(Stage.prepareDone prepared).2.1, ok]
    · rw [value, wrote]

theorem runIdle (idle : c.output? = none) : (run storage files c).files = files := by
  cases prepared : prepare (storage.read files) c.inputPath c.request with
  | error e => exact (runUnprepared prepared).2
  | ok p =>
    rcases Stage.endings prepared with ⟨_, _, still⟩ | ⟨output, writing, _⟩
    · exact still
    · cases idle.symm.trans writing

theorem runFailed {e : CommandError} (failed : (run storage files c).result = .error e) :
    (run storage files c).files = files ∨ ∃ path text fault, e = .output path fault ∧
      storage.write files path text = (.error fault, (run storage files c).files) := by
  cases prepared : prepare (storage.read files) c.inputPath c.request with
  | error e => exact .inl (runUnprepared prepared).2
  | ok p =>
    rcases Stage.endings prepared with ⟨_, _, still⟩ | ⟨own, _, ⟨fault, wrote, refused⟩ | ⟨_, _, done⟩⟩
    · exact .inl still
    · cases failed.symm.trans refused
      exact .inr ⟨own, _, fault, rfl, wrote⟩
    · cases failed.symm.trans done

end Command

open Command in
theorem commandsWriteAllOrNothing {σ : Type} (storage : Storage σ) (files : σ) (command : Command) :
    let outcome := run storage files command
    fault? outcome.result = Stage.ordered.findSome? (Stage.failure? storage files command) ∧
    (∀ e, outcome.result = .error e → (∀ path fault, e ≠ .output path fault) → outcome.files = files) ∧
    (command.output? = none → outcome.files = files) ∧
    ∀ sameFile, storage.Lawful sameFile →
      (∀ e, outcome.result = .error e → outcome.files = files) ∧
      ∀ output lines, command.output? = some output → outcome.result = .ok lines →
        ∃ text document pruned,
          storage.read files command.inputPath = .ok text ∧ Document.parse text = .ok document ∧
          document.prune (command.request.names (storage.read files)) = .ok pruned ∧
          storage.Written sameFile files outcome.files output pruned.value.document.toXml := by
  refine ⟨Stage.runFails storage files command, fun e failed early => ?_, runIdle,
    fun sameFile lawful => ⟨fun e failed => ?_, fun output lines writes done => ?_⟩⟩
  · rcases runFailed failed with still | ⟨path, _, fault, own, _⟩
    · exact still
    · exact absurd own (early path fault)
  · rcases runFailed failed with still | ⟨_, _, _, _, refused⟩
    · exact still
    · exact lawful.kept refused
  · obtain ⟨text, document, pruned, found, parsed, ok, wrote⟩ := runWrites writes done
    exact ⟨text, document, pruned, found, parsed, ok, lawful.written wrote⟩

def twoTypes : String :=
  "<Schema><EntityContainer/><EntityType Name=\"A\"/><EntityType Name=\"B\"/></Schema>"

def firstType : String :=
  "<?xml version=\"1.0\" encoding=\"utf-8\"?>\n" ++
    "<Schema><EntityContainer/><EntityType Name=\"A\"/></Schema>\n"

def twoFiles : Shelf where
  held name := if name = ['x'] ∨ name = ['y'] then some twoTypes else none
  locked name := name = ['y']

open Command in
theorem ownFileRewritten :
    let written := run Shelf.storage twoFiles (.filter "x" "/w/x" ⟨["A"], none, []⟩ false)
    let refused := run Shelf.storage twoFiles (.filter "x" "/w/y" ⟨["A"], none, []⟩ false)
    (∃ lines, written.result = .ok lines) ∧ Shelf.storage.read written.files "./x" = .ok firstType ∧
      Shelf.storage.read written.files "y" = .ok twoTypes ∧
      refused.result = .error (.output "/w/y" (.refused "Permission denied")) ∧
      refused.files = twoFiles := by
  have reads : Shelf.storage.read twoFiles "x" = .ok twoTypes := rfl
  have chars : twoTypes.toList = _ := Document.charsOf rfl
  obtain ⟨d, parsed, facts⟩ := Document.okWith (x := Document.parse twoTypes)
    (p := fun d => (d.prune [⟨"A"⟩]).toOption.any fun pruned : Logged Pruned =>
      decide (pruned.value.document.toXml = firstType))
    (by rw [Document.parseChars chars]; decide +kernel)
  obtain ⟨pruned, ok, shows⟩ := Document.okWith facts
  have names : Selection.shortNames ["A"] = [⟨"A"⟩] := by decide +kernel
  obtain ⟨g, prepared⟩ := preparedDirectly names reads parsed ok
  have taken (text : String) : ∃ after, Shelf.storage.write twoFiles "/w/x" text = (.ok (), after) :=
    ⟨_, rfl⟩
  have locked (text : String) : Shelf.storage.write twoFiles "/w/y" text =
      (.error (.refused "Permission denied"), twoFiles) := rfl
  obtain ⟨after, wrote⟩ := taken (Prepared.pruned ⟨[⟨"A"⟩], d, g⟩).document.toXml
  obtain ⟨done, _⟩ := runWritten prepared wrote
  obtain ⟨refused, _⟩ := runRefused prepared (locked _)
  obtain ⟨text, document, own, found, read, cut, written⟩ :=
    ((commandsWriteAllOrNothing Shelf.storage twoFiles (.filter "x" "/w/x" ⟨["A"], none, []⟩ false)).2.2.2
      _ Shelf.lawful).2 _ _ rfl done
  cases reads.symm.trans found
  cases parsed.symm.trans read
  have asked : Selection.names (Shelf.storage.read twoFiles) ⟨["A"], none, []⟩ = [⟨"A"⟩] := by
    simp [Selection.names, Selection.manifest?, names]
  cases ok.symm.trans (asked ▸ cut)
  refine ⟨⟨_, done⟩, ?_, (written.others "y" (by decide) _).mpr rfl, refused,
    ((commandsWriteAllOrNothing Shelf.storage twoFiles _).2.2.2 _ Shelf.lawful).1 _ refused⟩
  rw [written.same "./x" rfl, of_decide_eq_true shows]

end EdmxPruning
