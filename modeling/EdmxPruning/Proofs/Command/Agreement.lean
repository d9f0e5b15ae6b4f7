import EdmxPruning.Proofs.Command.Preparation
import EdmxPruning.Proofs.Command.Storage
import EdmxPruning.Proofs.Document.Removal
import EdmxPruning.Proofs.Navigation.Reachability

/-! The commands agree. Listing a closure, a dry run and a run that writes fail alike as long as nothing is
written, and what the first one lists is part of what the others print. -/
namespace EdmxPruning

def ShortName.bullet (name : ShortName) : String := "  - " ++ name.text

/- Lines that list some names under two headings, each name once, and announce how many they are. -/
structure Listing (lines : List String) (requested dependencies : List ShortName) : Prop where
  lines : lines =
    ["Requested entity types: " ++ toString requested.length] ++ requested.map ShortName.bullet ++
      ["Dependencies: " ++ toString dependencies.length] ++ dependencies.map ShortName.bullet ++
      ["Kept entity types: " ++ toString (requested.length + dependencies.length)]
  once : (requested ++ dependencies).Nodup

theorem NavigationGraph.closureListed (g : NavigationGraph) (names : List ShortName) :
    let closure := (g.closure names).value
    Listing closure.lines closure.requested.names closure.dependencies.names where
  lines := by
    unfold Closure.lines
    rw [sizeOfClosure]
    rfl
  once := by
    refine List.nodup_append.mpr ⟨NameSet.nodup _, NameSet.nodup _, fun a asked b depends same => ?_⟩
    exact (NameSet.memDiff.mp depends).2 (same ▸ asked)

open Command in
theorem commandsAgree {σ : Type} (storage : Storage σ) (files : σ)
    (input output : String) (selection : Selection) :
    let listed := run storage files (.closure input selection)
    let dry := run storage files (.filter input output selection true)
    let real := run storage files (.filter input output selection false)
    (∃ e, listed.result = .error e ∧ dry.result = .error e ∧ real.result = .error e ∧
      ∀ path fault, e ≠ .output path fault) ∨
    ∃ text document names pruned requested dependencies,
      storage.read files input = .ok text ∧ Document.parse text = .ok document ∧
      (selection.requested (storage.read files)).result = .ok names ∧
      document.prune names = .ok pruned ∧
      let lines := pruned.value.closure.lines
      let shown := ["Input file: " ++ input] ++ lines ++ pruned.value.report.summary
      listed.result = .ok lines ∧ Listing lines requested dependencies ∧
      (∀ name, name ∈ requested ↔ name ∈ names) ∧
      dry.result = .ok (shown ++ ["Dry run: " ++ output ++ " has not been written"]) ∧
      (real.result = .ok (shown ++ [output ++ " file has been written"]) ∨
        ∃ fault, real.result = .error (.output output fault)) := by
  intro listed dry real
  cases prepared : prepare (storage.read files) input selection with
  | error e =>
    have fails (command : Command) (source : command.inputPath = input)
        (asks : command.request = selection) : (run storage files command).result = .error e := by
      subst source asks
      exact (runUnprepared prepared).1
    exact .inl ⟨e, fails _ rfl rfl, fails _ rfl rfl, fails _ rfl rfl, preparesNoOutput prepared⟩
  | ok p =>
    have parts := preparedParts prepared
    obtain ⟨text, read, parsed⟩ := loadedParts parts.document
    obtain ⟨pruned, ok, same⟩ := parts.pruned
    have closure : pruned.value.closure = (p.graph.closure p.names).value := by rw [same]; rfl
    refine .inr ⟨text, p.document, p.names, pruned, _, _, read, parsed, parts.names, ok, ?_,
      closure ▸ p.graph.closureListed p.names, fun name => ?_, ?_, ?_⟩
    · rw [same]
      exact (runClosure prepared).1
    · rw [closure]
      exact NavigationGraph.requestedOfClosure
    · rw [same]
      exact (runDry prepared).1
    · rw [same]
      cases wrote : storage.write files output p.pruned.document.toXml with
      | mk written after =>
        cases written with
        | error fault => exact .inr ⟨fault, (runRefused prepared wrote).1⟩
        | ok => exact .inl (runWritten prepared wrote).1

def joinedTypes : String :=
  "<Schema><EntityContainer/><EntityType Name=\"A\"><NavigationProperty Relationship=\"R\"/></EntityType>" ++
    "<EntityType Name=\"B\"/><EntityType Name=\"C\"/>" ++
    "<Association Name=\"R\"><End Type=\"A\"/><End Type=\"B\"/></Association></Schema>"

def joinedFile : Shelf where
  held name := if name = ['x'] then some joinedTypes else none
  locked _ := false

def joinedKept : List String :=
  ["Requested entity types: 1", "  - A", "Dependencies: 1", "  - B", "Kept entity types: 2"]

def joinedRemoved : List String :=
  ["Removed entity sets: 0", "Removed entity types: 1", "Removed associations: 0",
    "Removed function imports: 0", "Removed navigation properties: 0"]

open Command in
theorem joinedTypesListed :
    let listed := run Shelf.storage joinedFile (.closure "x" ⟨["A"], none, []⟩)
    let dry := run Shelf.storage joinedFile (.filter "x" "/w/y" ⟨["A"], none, []⟩ true)
    let real := run Shelf.storage joinedFile (.filter "x" "/w/y" ⟨["A"], none, []⟩ false)
    let shown := ["Input file: x"] ++ joinedKept ++ joinedRemoved
    listed.result = .ok joinedKept ∧
      dry.result = .ok (shown ++ ["Dry run: /w/y has not been written"]) ∧
      real.result = .ok (shown ++ ["/w/y file has been written"]) := by
  have reads : Shelf.storage.read joinedFile "x" = .ok joinedTypes := rfl
  have taken (text : String) : ∃ after, Shelf.storage.write joinedFile "/w/y" text = (.ok (), after) :=
    ⟨_, rfl⟩
  have chars : joinedTypes.toList = _ :=
    Document.charsAppend (Document.charsAppend (Document.charsOf (by rfl)) (Document.charsOf (by rfl)))
      (Document.charsOf (by rfl))
  obtain ⟨d, parsed, facts⟩ := Document.okWith (x := Document.parse joinedTypes)
    (p := fun d => (d.prune [⟨"A"⟩]).toOption.any fun pruned : Logged Pruned =>
      decide (pruned.value.closure.lines = joinedKept ∧ pruned.value.report.summary = joinedRemoved))
    (by rw [Document.parseChars chars]; decide +kernel)
  obtain ⟨pruned, ok, shows⟩ := Document.okWith facts
  obtain ⟨kept, removed⟩ := of_decide_eq_true shows
  have names : Selection.shortNames ["A"] = [⟨"A"⟩] := by decide +kernel
  obtain ⟨g, prepared⟩ := preparedDirectly names reads parsed ok
  obtain ⟨after, wrote⟩ := taken (Prepared.pruned ⟨[⟨"A"⟩], d, g⟩).document.toXml
  rcases commandsAgree Shelf.storage joinedFile "x" "/w/y" ⟨["A"], none, []⟩ with
    ⟨e, failed, _⟩ | ⟨text, document, asked, own, _, _, found, read, request, cut, listed, _, _, dry, real⟩
  · cases failed.symm.trans (runClosure prepared).1
  cases reads.symm.trans found
  cases parsed.symm.trans read
  cases (requestedDirectly names).symm.trans request
  cases ok.symm.trans cut
  rw [kept] at listed dry real
  rw [removed] at dry real
  refine ⟨listed, dry, real.elim id fun ⟨fault, refused⟩ => ?_⟩
  cases refused.symm.trans (runWritten prepared wrote).1

end EdmxPruning
