import EdmxPruning.Proofs.Command.Preparation
import EdmxPruning.Proofs.Metadata.ShortNames
import EdmxPruning.Proofs.Pruning.Journal

/-! What a selection comes to, told from the manifest and not from the work: either it is refused, or its
names are those of its entities and of the profiles that its features stand for. A list of names is never
empty, so nothing that a command works with is, and no run has to warn that everything goes. -/
namespace EdmxPruning

namespace Manifest

variable {m : Manifest} {name : String} {profile : Profile}

def Means (m : Manifest) (name : String) (profile : Profile) : Prop :=
  ∃ before after, m.profiles = before ++ profile :: after ∧ profile.name = name ∧
    ∀ other ∈ before, other.name ≠ name

theorem findMeans : m.find? name = some profile ↔ m.Means name profile := by
  unfold find? Means
  rw [List.find?_eq_some_iff_append]
  constructor
  · rintro ⟨own, before, after, split, others⟩
    exact ⟨before, after, split, by simpa using own, by simpa using others⟩
  · rintro ⟨before, after, split, own, others⟩
    exact ⟨by simpa using own, before, after, split, by simpa using others⟩

theorem lacksIff : m.lacks name = true ↔ ∀ profile ∈ m.profiles, profile.name ≠ name := by
  unfold lacks find?
  rw [Option.isNone_iff_eq_none, List.find?_eq_none]
  simp

theorem knownIff : ¬ m.lacks name = true ↔ ∃ profile, m.Means name profile := by
  unfold lacks
  rw [Option.isNone_iff_eq_none, ← ne_eq, Option.ne_none_iff_exists']
  exact exists_congr fun _ => findMeans

theorem meansAll {names : List String} (known : names.find? m.lacks = none) :
    ∃ profiles, List.Forall₂ m.Means names profiles := by
  rw [List.find?_eq_none] at known
  induction names with
  | nil => exact ⟨[], .nil⟩
  | cons name rest ih =>
    obtain ⟨profile, means⟩ := knownIff.mp (known name List.mem_cons_self)
    obtain ⟨profiles, later⟩ := ih fun other listed => known other (List.mem_cons_of_mem _ listed)
    exact ⟨profile :: profiles, .cons means later⟩

theorem meantEntities {names : List String} {profiles : List Profile}
    (meant : List.Forall₂ m.Means names profiles) : names.find? m.lacks = none ∧
      names.flatMap m.entitiesNamed = profiles.flatMap Profile.entities := by
  induction meant with
  | nil => exact ⟨rfl, rfl⟩
  | cons means later ih =>
    have own := findMeans.mpr means
    rw [List.find?_cons_of_neg (knownIff.mpr ⟨_, means⟩), List.flatMap_cons, List.flatMap_cons, ih.2]
    exact ⟨ih.1, by simp [entitiesNamed, own]⟩

end Manifest

namespace Selection

variable {read : Reader} {s : Selection}

def Reads (read : Reader) (s : Selection) (m : Manifest) : Prop :=
  ∃ path text, s.profile? = some path ∧ read path = .ok text ∧ Manifest.parse? text = some m

/- The entities that the features list. Without a manifest they list nothing. -/
inductive Lists (read : Reader) (s : Selection) : List String → Prop where
  | nothing (alone : s.profile? = none) : Lists read s []
  | profiles {m profiles} (given : s.Reads read m)
      (meant : List.Forall₂ m.Means s.features profiles) :
      Lists read s (profiles.flatMap Profile.entities)

inductive Refused (read : Reader) (s : Selection) : CommandError → Prop where
  | unread {path fault} (given : s.profile? = some path) (failed : read path = .error fault) :
      Refused read s (.manifest path (.file fault))
  | garbled {path text} (given : s.profile? = some path) (found : read path = .ok text)
      (unread : Manifest.parse? text = none) : Refused read s (.manifest path .format)
  | unknown {m before name after} (given : s.Reads read m)
      (split : s.features = before ++ name :: after)
      (known : ∀ earlier ∈ before, ∃ profile ∈ m.profiles, profile.name = earlier)
      (unknown : ∀ profile ∈ m.profiles, profile.name ≠ name) :
      Refused read s (.unknownProfile name)

inductive Answers (read : Reader) (s : Selection) : Except CommandError (List ShortName) → Prop where
  | refused {e} (why : s.Refused read e) : Answers read s (.error e)
  | nothing {listed} (lists : s.Lists read listed) (none : shortNames (s.entities ++ listed) = []) :
      Answers read s (.error .noEntitiesRequested)
  | names {listed} (lists : s.Lists read listed) (some : shortNames (s.entities ++ listed) ≠ []) :
      Answers read s (.ok (shortNames (s.entities ++ listed)))

theorem profiledGiven {m : Manifest} (given : s.Reads read m) :
    s.profiled read = match s.features.find? m.lacks with
      | some name => .error (.unknownProfile name)
      | none => .ok (s.features.flatMap m.entitiesNamed) := by
  obtain ⟨path, text, own, found, formed⟩ := given
  simp only [profiled, own, manifest, found, formed]
  rfl

theorem listsProfiled {listed : List String} (lists : s.Lists read listed) :
    s.profiled read = .ok listed := by
  cases lists with
  | nothing alone => simp only [profiled, alone]
  | profiles given meant =>
    obtain ⟨known, entities⟩ := Manifest.meantEntities meant
    rw [profiledGiven given, known, ← entities]

theorem refusedProfiled {e : CommandError} (why : s.Refused read e) : s.profiled read = .error e := by
  cases why with
  | unread given failed => simp only [profiled, given, manifest, failed, Except.bind]
  | garbled given found unread => simp only [profiled, given, manifest, found, unread, Except.bind]
  | @unknown m before name after given split known unknown =>
    have first : s.features.find? m.lacks = some name := by
      refine List.find?_eq_some_iff_append.mpr
        ⟨Manifest.lacksIff.mpr unknown, before, after, split, fun earlier listed => ?_⟩
      obtain ⟨profile, inside, own⟩ := known earlier listed
      simpa using fun lacks => Manifest.lacksIff.mp lacks profile inside own
    rw [profiledGiven given, first]

/- The cases of the manifest and of the features, in the order in which the work meets them. -/
theorem listsOrRefused (read : Reader) (s : Selection) :
    (∃ listed, s.Lists read listed) ∨ ∃ e, s.Refused read e := by
  cases own : s.profile? with
  | none => exact .inl ⟨_, .nothing own⟩
  | some path =>
    cases found : read path with
    | error fault => exact .inr ⟨_, .unread own found⟩
    | ok text =>
      cases formed : Manifest.parse? text with
      | none => exact .inr ⟨_, .garbled own found formed⟩
      | some m =>
        have given : s.Reads read m := ⟨path, text, own, found, formed⟩
        cases first : s.features.find? m.lacks with
        | none =>
          obtain ⟨profiles, meant⟩ := Manifest.meansAll first
          exact .inl ⟨_, .profiles given meant⟩
        | some name =>
          obtain ⟨lacks, before, after, split, others⟩ := List.find?_eq_some_iff_append.mp first
          have known : ∀ earlier ∈ before, ∃ profile ∈ m.profiles, profile.name = earlier := by
            intro earlier listed
            have met : ¬ m.lacks earlier = true := by simpa using others earlier listed
            simpa [Manifest.lacksIff] using met
          exact .inr ⟨_, .unknown given split known (Manifest.lacksIff.mp lacks)⟩

theorem requestedAnswers {r : Except CommandError (List ShortName)} :
    (s.requested read).result = r ↔ s.Answers read r := by
  rw [requestedResult]
  constructor
  · rintro rfl
    rcases listsOrRefused read s with ⟨listed, lists⟩ | ⟨e, why⟩
    · rw [listsProfiled lists, Except.bind]
      split
      case isTrue none => exact .nothing lists none
      case isFalse some => exact .names lists some
    · rw [refusedProfiled why]
      exact .refused why
  · intro answers
    cases answers with
    | refused why =>
      rw [refusedProfiled why]
      rfl
    | nothing lists none =>
      rw [listsProfiled lists, Except.bind, if_pos none]
    | names lists some =>
      rw [listsProfiled lists, Except.bind, if_neg some]

theorem shortNameParts {references : List String} {name : ShortName}
    (listed : name ∈ shortNames references) : name.text ≠ "" ∧ '.' ∉ name.text.toList := by
  obtain ⟨inside, filled⟩ := List.mem_filter.mp listed
  obtain ⟨reference, _, short⟩ := List.mem_map.mp inside
  refine ⟨of_decide_eq_true filled, ?_⟩
  rw [← short, ShortName.ofReference, String.toList_ofList]
  exact Text.afterLastUnmarked '.' _

theorem requestedNames {names : List ShortName} (done : (s.requested read).result = .ok names) :
    names ≠ [] ∧ ∀ name ∈ names, name.text ≠ "" ∧ '.' ∉ name.text.toList := by
  cases requestedAnswers.mp done with
  | names _ some => exact ⟨some, fun name listed => shortNameParts listed⟩

end Selection

namespace Job

variable {α β : Type} {e : Event}

def Silent (e : Event) (job : Job α) : Prop := e ∉ job.run.events

theorem silentBind {job : Job α} {next : α → Job β} (first : job.Silent e)
    (later : ∀ a, job.result = .ok a → (next a).Silent e) : (job >>= next).Silent e := by
  intro logged
  have all : (job >>= next).run.events =
      job.run.events ++ (ExceptT.bindCont next job.run.value).events := rfl
  rw [all, List.mem_append] at logged
  refine logged.elim first fun after => ?_
  cases outcome : job.run.value with
  | error fault =>
    rw [outcome] at after
    exact List.not_mem_nil after
  | ok a =>
    rw [outcome] at after
    exact later a outcome after

theorem silentPure (a : α) : (pure a : Job α).Silent e := List.not_mem_nil

theorem silentOfExcept (x : Except CommandError α) : (ofExcept x).Silent e := List.not_mem_nil

theorem silentLift {logged : Logged α} (silent : e ∉ logged.events) :
    Silent e (ExceptT.lift logged : Job α) := by
  intro inside
  have same : (ExceptT.lift logged : Job α).run.events = logged.events ++ [] := rfl
  rw [same, List.append_nil] at inside
  exact silent inside

end Job

namespace Work

variable {σ α β : Type} {e : Event} {storage : Storage σ} {files : σ}

def Silent (e : Event) (work : Work σ α) (files : σ) : Prop := e ∉ (work.run.run files).events

theorem silentBind {work : Work σ α} {next : α → Work σ β} (first : work.Silent e files)
    (later : ∀ a after, work.comesTo files = (.ok a, after) → (next a).Silent e after) :
    (work >>= next).Silent e files := by
  intro logged
  have all : ((work >>= next).run.run files).events = (work.run.run files).events ++
      (ExceptT.bindCont next (work.run.run files).value.1 (work.run.run files).value.2).events := rfl
  rw [all, List.mem_append] at logged
  refine logged.elim first fun inside => ?_
  cases outcome : (work.run.run files).value with
  | mk result after =>
    rw [outcome] at inside
    cases result with
    | error fault => exact List.not_mem_nil inside
    | ok a => exact later a after outcome inside

theorem silentJob {job : Job α} (silent : job.Silent e) : (ofJob job).Silent e files := silent

theorem silentReading {job : Reader → Job α} (silent : (job (storage.read files)).Silent e) :
    (reading storage job).Silent e files := silent

end Work

theorem Manifest.entitiesOfLogs {m : Manifest} {names : List String} {e : Event}
    (logged : e ∈ (m.entitiesOf names).events) : ∃ profile : Profile, e = profile.event := by
  induction names with
  | nil => cases logged
  | cons name rest ih =>
    unfold entitiesOf at logged
    cases found : m.find? name with
    | none =>
      rw [found] at logged
      cases logged
    | some profile =>
      rw [found] at logged
      have either : e ∈ profile.event :: ((m.entitiesOf rest).events ++ []) := logged
      rw [List.append_nil] at either
      rcases List.mem_cons.mp either with own | later
      · exact ⟨profile, own⟩
      · exact ih later

theorem Selection.requestedSilent (read : Reader) (s : Selection) :
    (s.requested read).Silent .emptyClosure := by
  have profiles : (s.fromProfiles read).Silent .emptyClosure := by
    unfold fromProfiles
    split
    · exact Job.silentPure _
    · refine Job.silentBind (Job.silentOfExcept _) fun m _ logged => ?_
      have inside : .emptyClosure ∈ (m.entitiesOf s.features).events := logged
      obtain ⟨profile, same⟩ := Manifest.entitiesOfLogs inside
      cases same
  refine Job.silentBind profiles fun listed _ => ?_
  split
  · exact List.not_mem_nil
  · exact Job.silentPure _

namespace Command

theorem loadSilent (input : String) (read : Reader) : (load input read).Silent .emptyClosure := by
  refine Job.silentBind (Job.silentOfExcept _) fun text _ => ?_
  refine Job.silentBind (Job.silentOfExcept _) fun document _ => ?_
  exact Job.silentBind (Job.silentLift (by simp [Logged.log])) fun _ _ => Job.silentPure _

theorem processSilent {σ : Type} (storage : Storage σ) (files : σ) (command : Command) :
    (process storage command).Silent .emptyClosure files := by
  cases command with
  | filter input output selection dryRun =>
    refine Work.silentBind (Work.silentReading (selection.requestedSilent _)) fun names after asked => ?_
    refine Work.silentBind (Work.silentReading (loadSilent input _)) fun document after' found => ?_
    refine Work.silentBind (Work.silentJob (Job.silentOfExcept _)) fun logged _ pruned => ?_
    have ok : document.prune names = .ok logged := okOfMapError (Prod.mk.inj pruned).1
    have loads := (loadResult _ input).symm.trans (Prod.mk.inj found).1
    obtain ⟨text, _, parsed⟩ := loadedParts loads
    have arena := (Document.Reached.parsed parsed).arena
    have warned : .emptyClosure ∉ logged.events := fun warned =>
      (Selection.requestedNames (Prod.mk.inj asked).1).1 ((Document.pruneWarns arena ok).mp warned)
    refine Work.silentBind (Work.silentJob (Job.silentLift warned)) fun pruned _ _ => ?_
    split
    · exact Work.silentBind (Work.silentJob (Job.silentLift (by simp [Logged.log])))
        fun _ _ _ => List.not_mem_nil
    · exact Work.silentBind List.not_mem_nil fun _ _ _ => List.not_mem_nil
  | closure input selection =>
    refine Work.silentBind (Work.silentReading (selection.requestedSilent _)) fun names _ _ => ?_
    refine Work.silentBind (Work.silentReading (loadSilent input _)) fun document _ _ => ?_
    refine Work.silentBind (Work.silentJob (Job.silentOfExcept _)) fun graph _ _ => ?_
    have built : (Job.log graph.events).Silent .emptyClosure :=
      Job.silentLift fun warned => (NavigationGraph.graphLogs warned).2 rfl
    refine Work.silentBind (Work.silentJob built) fun _ _ _ => ?_
    have searched : .emptyClosure ∉ (graph.closure names).events :=
      fun warned => (NavigationGraph.closureLogs warned).2.1 rfl
    exact Work.silentBind (Work.silentJob (Job.silentLift searched)) fun _ _ _ => List.not_mem_nil

end Command

theorem NavigationGraph.closureFilled {g : NavigationGraph} {names : List ShortName}
    (some : names ≠ []) : (g.closure names).value.isEmpty = false :=
  Bool.eq_false_iff.mpr fun empty => some (NavigationGraph.emptyClosureIff.mp empty)

theorem selectionAnswered :
    (∀ (read : Reader) (s : Selection) r, (s.requested read).result = r ↔ s.Answers read r) ∧
      (∀ (read : Reader) (s : Selection) names, (s.requested read).result = .ok names →
        (∀ name ∈ names, name.text ≠ "" ∧ '.' ∉ name.text.toList) ∧
        (∀ g : NavigationGraph, (g.closure names).value.isEmpty = false) ∧
        ∀ (d : Document) pruned, d.prune names = .ok pruned → pruned.value.closure.isEmpty = false) ∧
      ∀ {σ : Type} (storage : Storage σ) (files : σ) (command : Command),
        .emptyClosure ∉ (Command.run storage files command).events := by
  refine ⟨fun read s r => Selection.requestedAnswers, fun read s names done => ?_, Command.processSilent⟩
  obtain ⟨some, parts⟩ := Selection.requestedNames done
  refine ⟨parts, fun g => NavigationGraph.closureFilled some, fun d pruned ok => ?_⟩
  obtain ⟨g, _, closure, _⟩ := Document.pruneParts ok
  rw [closure]
  exact NavigationGraph.closureFilled some

def twoProfiles : Reader := fun _ =>
  .ok "profiles = [\x7bname = 'a', entities = ['X.A', '.']\x7d, \x7bname = 'a', entities = ['C']\x7d]"

theorem namesOfFirstProfile :
    (Selection.requested twoProfiles ⟨["X.B ", ""], some "m", ["a", "a"]⟩).result =
        .ok [⟨"B"⟩, ⟨"A"⟩, ⟨"A"⟩] ∧
      Selection.Answers twoProfiles ⟨["X.B ", ""], some "m", ["a", "a"]⟩ (.ok [⟨"B"⟩, ⟨"A"⟩, ⟨"A"⟩]) ∧
      Selection.Answers twoProfiles ⟨["X.B"], some "m", ["a", "b"]⟩ (.error (.unknownProfile "b")) ∧
      ∀ g : NavigationGraph, (g.closure [⟨"B"⟩, ⟨"A"⟩, ⟨"A"⟩]).value.isEmpty = false := by
  obtain ⟨answers, filled, _⟩ := selectionAnswered
  have names : (Selection.requested twoProfiles ⟨["X.B ", ""], some "m", ["a", "a"]⟩).result =
      .ok [⟨"B"⟩, ⟨"A"⟩, ⟨"A"⟩] := by decide +kernel
  have unknown : (Selection.requested twoProfiles ⟨["X.B"], some "m", ["a", "b"]⟩).result =
      .error (.unknownProfile "b") := by decide +kernel
  exact ⟨names, (answers _ _ _).mp names, (answers _ _ _).mp unknown, (filled _ _ _ names).2.1⟩

end EdmxPruning
