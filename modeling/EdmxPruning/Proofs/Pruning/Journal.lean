import EdmxPruning.Proofs.Navigation.Grouping
import EdmxPruning.Proofs.Pruning.Surroundings

/-! The log of a run accounts for its result. Each removal is logged when its call is made, under a name that
is read from what the call has left. In the end the log says of every kind what the report counts and what
the document has lost, and it says how many definitions the index has no entry for. -/
namespace EdmxPruning

namespace Event

def isRemoval : Event → Bool
  | .removed .. => true
  | _ => false

def isRepetition : Event → Bool
  | .duplicateDefinition _ => true
  | _ => false

def ofPass : Event → Bool
  | .removed .. | .passDone .. => true
  | _ => false

theorem removalOfPass {e : Event} (removal : e.isRemoval = true) : e.ofPass = true := by
  cases e with
  | removed => rfl
  | _ => cases removal

theorem repetitionLevel {e : Event} (repetition : e.isRepetition = true) : e.level = .debug := by
  cases e with
  | duplicateDefinition => rfl
  | _ => cases repetition

end Event

namespace Document

def loggedName (d : Document) (id : NodeId) : String := (d.attribute? id "Name").getD ""

def callEvents (d : Document) (kind : ElementKind) : List NodeId → List Event
  | [] => []
  | id :: rest =>
      match d.remove? id with
      | none => d.callEvents kind rest
      | some smaller => .removed kind (smaller.loggedName id) :: smaller.callEvents kind rest

theorem Loses.loggedNameSame {d left : Document} {gone : NodeId → Prop} (lose : d.Loses left gone) :
    left.loggedName = d.loggedName := by
  unfold loggedName
  rw [lose.attributeSame]

/- The calls leave the attributes alone, so the names are those that were there at the start. -/
theorem callEventsNamed {d : Document} (arena : d.Arena) (kind : ElementKind) (ids : List NodeId) :
    d.callEvents kind ids =
      (d.removeAll ids).removed.map fun id => .removed kind (d.loggedName id) := by
  induction ids generalizing d with
  | nil => rfl
  | cons id rest ih =>
    unfold callEvents removeAll
    cases tried : d.remove? id with
    | none => exact ih arena
    | some smaller =>
      have lose := removeLoses arena tried
      have later := ih (lose.arena arena)
      rw [lose.loggedNameSame] at later
      exact congrArg₂ List.cons (by rw [lose.loggedNameSame]) later

def named (d : Document) (kind : ElementKind) : List NodeId :=
  (d.find kind none).filter fun id => (d.attribute? id "Name").isSome

theorem namedCount (d : Document) (kind : ElementKind) :
    ((d.find kind none).filterMap (d.reference? · "Name")).length = (d.named kind).length := by
  rw [List.length_filterMap_eq_countP, List.countP_eq_length_filter]
  simp only [reference?, Option.isSome_map, named]

end Document

namespace NavigationGraph

/- A definition either gets an entry of its own or is logged. -/
theorem repeatedCount (names : List ShortName) (seen : NameSet) :
    (repeated seen names).length + (seen.insertAll names).size = seen.size + names.length := by
  induction names generalizing seen with
  | nil => exact Nat.zero_add _
  | cons name rest ih =>
    show _ + ((seen.insert name).insertAll rest).size = _
    unfold repeated
    split
    case isTrue known =>
      have later := ih seen
      rw [NameSet.insertKnown known, List.length_cons, List.length_cons]
      omega
    case isFalse new =>
      have later := ih (seen.insert name)
      rw [NameSet.sizeInsert new] at later
      rw [List.length_cons]
      omega

theorem keyCount (names : List ShortName) :
    (repeated ∅ names).length + (NameSet.ofList names).size = names.length :=
  (repeatedCount names ∅).trans (Nat.zero_add _)

theorem eventsRepeat (g : NavigationGraph) :
    g.events.countP Event.isRepetition + (g.entityNames.size + g.associationNames.size) =
      g.entityTypes.length + g.associations.length := by
  have types := keyCount (g.entityTypes.map EntityType.name)
  have associations := keyCount (g.associations.map Association.name)
  have logged (names : List ShortName) :
      (names.map Event.duplicateDefinition).countP Event.isRepetition = names.length := by
    rw [List.countP_map]
    exact congrFun List.countP_true names
  have built : [Event.indexBuilt g.entityNames.size g.associationNames.size].countP
      Event.isRepetition = 0 := rfl
  rw [List.length_map] at types associations
  unfold events
  rw [List.countP_append, List.countP_append, logged, logged, built]
  unfold entityNames associationNames
  omega

theorem graphLogs {g : NavigationGraph} {e : Event} (logged : e ∈ g.events) :
    e.ofPass = false ∧ e ≠ .emptyClosure := by
  unfold events at logged
  simp only [List.mem_append, List.mem_map, List.mem_singleton] at logged
  obtain (⟨_, _, rfl⟩ | ⟨_, _, rfl⟩) | rfl := logged <;> exact ⟨rfl, Event.noConfusion⟩

theorem closureLogs {g : NavigationGraph} {names : List ShortName} {e : Event}
    (logged : e ∈ (g.closure names).events) :
    e.ofPass = false ∧ e ≠ .emptyClosure ∧ e.isRepetition = false := by
  unfold closure visitEvents at logged
  simp only [List.mem_append, List.mem_map, List.mem_flatMap] at logged
  obtain ⟨_, _, rfl⟩ | ⟨_, _, ⟨_, _, rfl⟩ | ⟨_, _, rfl⟩⟩ := logged <;>
    exact ⟨rfl, Event.noConfusion, rfl⟩

theorem emptyClosureIff {g : NavigationGraph} {names : List ShortName} :
    (g.closure names).value.isEmpty = true ↔ names = [] := by
  unfold Closure.isEmpty NameSet.isEmpty
  rw [List.isEmpty_iff, List.eq_nil_iff_forall_not_mem, List.eq_nil_iff_forall_not_mem]
  constructor
  · exact fun none n asked => none n (memClosure.mpr ⟨n, asked, .refl⟩)
  · intro none m kept
    obtain ⟨n, asked, _⟩ := memClosure.mp kept
    exact none n asked

end NavigationGraph

namespace Pruning

def block (g : NavigationGraph) (closure : Closure) (d : Document) (kind : ElementKind) : List Event :=
  (stage g closure d kind).callEvents kind (choice g closure d kind) ++
    [.passDone kind ((run g closure d).report.countOf kind)]

def preface (g : NavigationGraph) (requested : List ShortName) : List Event :=
  let closure := g.closure requested
  g.events ++ closure.events ++ [.closureComputed closure.value.requested.size closure.value.size] ++
    if closure.value.isEmpty then [.emptyClosure] else []

section Blocks

variable {d : Document} {g : NavigationGraph} {closure : Closure} {kind : ElementKind} (arena : d.Arena)
include arena

theorem blockNamed (listed : kind ∈ ElementKind.removable) : block g closure d kind =
    (removedBy g closure d kind).map (fun id => .removed kind (d.loggedName id)) ++
      [.passDone kind (removedBy g closure d kind).length] := by
  have lose : d.Loses (stage g closure d kind) (Chosen g closure d) := toStage arena kind
  unfold block
  rw [Document.callEventsNamed (lose.arena arena), lose.loggedNameSame, countOfRun listed]
  rfl

theorem runLogs : (run g closure d).passes.flatMap (Pass.events d) =
    ElementKind.removable.flatMap (block g closure d) := by
  rw [runStages, List.flatMap_map]
  refine List.flatMap_congr fun kind listed => ?_
  exact (blockNamed arena listed).symm

/- Among all calls of the run those of a pass are the ones that take out elements of its kind. -/
theorem turnsOfKind (built : d.navigation = .ok g) (listed : kind ∈ ElementKind.removable) :
    ((d.turns (calls g closure d)).map Turn.id).filter (d.hasKind kind) = removedBy g closure d kind := by
  have own (other : ElementKind) : ∀ id ∈ removedBy g closure d other, d.hasKind other id = true :=
    fun id removed => choiceKind arena built (.refl d fun _ => False) (Document.removeAllRemoved removed)
  have part (other : ElementKind) : (removedBy g closure d other).filter (d.hasKind kind) =
      if other = kind then removedBy g closure d kind else [] := by
    split
    case isTrue same =>
      subst same
      exact List.filter_eq_self.mpr (own other)
    case isFalse different =>
      refine List.filter_eq_nil_iff.mpr fun id removed both => different ?_
      exact Document.hasKindUnique (own other id removed) both
  rw [Document.turnsRemoved, callsRun, List.filter_flatMap]
  simp only [part]
  revert listed
  cases kind <;> simp [ElementKind.removable]

theorem blockLevels (listed : kind ∈ ElementKind.removable) :
    (block g closure d kind).map Event.level =
      List.replicate (removedBy g closure d kind).length .debug ++ [.info] := by
  rw [blockNamed arena listed, List.map_append, List.map_map, ← List.map_const]
  rfl

theorem blockRemovals (listed : kind ∈ ElementKind.removable) :
    (block g closure d kind).countP Event.isRemoval = (removedBy g closure d kind).length := by
  rw [blockNamed arena listed, List.countP_append, List.countP_map]
  exact congrFun List.countP_true _

theorem memBlock (listed : kind ∈ ElementKind.removable) {e : Event}
    (logged : e ∈ block g closure d kind) : e.ofPass = true := by
  rw [blockNamed arena listed, List.mem_append, List.mem_map, List.mem_singleton] at logged
  obtain ⟨_, _, rfl⟩ | rfl := logged <;> rfl

theorem blocksRemove :
    (ElementKind.removable.flatMap (block g closure d)).countP Event.isRemoval =
      (run g closure d).report.total := by
  rw [totalRemoved, List.countP_flatMap, List.length_flatMap]
  exact congrArg List.sum (List.map_congr_left fun kind listed => blockRemovals arena listed)

end Blocks

section Preface

variable {g : NavigationGraph} {requested : List ShortName}

theorem memPreface {e : Event} : e ∈ preface g requested ↔ e ∈ g.events ∨
    e ∈ (g.closure requested).events ∨
    e = .closureComputed (g.closure requested).value.requested.size (g.closure requested).value.size ∨
    requested = [] ∧ e = .emptyClosure := by
  unfold preface
  simp only [List.mem_append, List.mem_singleton, List.mem_ite_nil_right,
    NavigationGraph.emptyClosureIff, or_assoc]

theorem prefaceOfNoPass {e : Event} (logged : e ∈ preface g requested) : e.ofPass = false := by
  obtain graph | search | rfl | ⟨_, rfl⟩ := memPreface.mp logged
  · exact (NavigationGraph.graphLogs graph).1
  · exact (NavigationGraph.closureLogs search).1
  · rfl
  · rfl

theorem prefaceWarns : .emptyClosure ∈ preface g requested ↔ requested = [] := by
  rw [memPreface]
  constructor
  · rintro (graph | search | other | ⟨nothing, _⟩)
    · exact absurd rfl (NavigationGraph.graphLogs graph).2
    · exact absurd rfl (NavigationGraph.closureLogs search).2.1
    · cases other
    · exact nothing
  · exact fun nothing => .inr (.inr (.inr ⟨nothing, rfl⟩))

theorem prefaceRepeats :
    (preface g requested).countP Event.isRepetition = g.events.countP Event.isRepetition := by
  have search : (g.closure requested).events.countP Event.isRepetition = 0 :=
    List.countP_eq_zero.mpr fun e logged => by simp [(NavigationGraph.closureLogs logged).2.2]
  have warning : (if (g.closure requested).value.isEmpty then [Event.emptyClosure] else []).countP
      Event.isRepetition = 0 := by split <;> rfl
  unfold preface
  rw [List.countP_append, List.countP_append, List.countP_append, search, warning]
  rfl

end Preface

end Pruning

structure Document.Journal (d : Document) (requested : List ShortName) (g : NavigationGraph)
    (pruned : Logged Pruned) (before : List Event) : Prop where
  closure : pruned.value.closure = (g.closure requested).value
  log : pruned.events = before ++
    ElementKind.removable.flatMap (Pruning.block g pruned.value.closure d)
  preceding : ∀ e ∈ before, e.ofPass = false
  blocks : ∀ kind ∈ ElementKind.removable, ∃ removed : List NodeId,
    Pruning.block g pruned.value.closure d kind =
      removed.map (fun id => .removed kind (d.loggedName id)) ++
        [.passDone kind (pruned.value.report.countOf kind)] ∧
    removed.Perm (d.detached pruned.value.document (d.hasKind kind)) ∧
    removed = ((d.turns (Pruning.calls g pruned.value.closure d)).map Turn.id).filter (d.hasKind kind) ∧
    removed.length = pruned.value.report.countOf kind
  levels : ∀ kind ∈ ElementKind.removable,
    (Pruning.block g pruned.value.closure d kind).map Event.level =
      List.replicate (pruned.value.report.countOf kind) .debug ++ [.info]
  total : pruned.events.countP Event.isRemoval = pruned.value.report.total
  repetitions : before.countP Event.isRepetition + (g.entityNames.size + g.associationNames.size) =
    (d.named .entityType).length + (d.named .association).length
  repetitionLevels : ∀ e ∈ before, e.isRepetition = true → e.level = .debug
  warning : .emptyClosure ∈ pruned.events ↔ requested = []

theorem Document.pruneEvents {d : Document} {requested : List ShortName} {pruned : Logged Pruned}
    (arena : d.Arena) (ok : d.prune requested = .ok pruned) : ∃ g, d.navigation = .ok g ∧
      pruned.events = Pruning.preface g requested ++
        ElementKind.removable.flatMap (Pruning.block g pruned.value.closure d) := by
  obtain ⟨g, built, closure, _⟩ := pruneParts ok
  refine ⟨g, built, ?_⟩
  rw [closure, ← Pruning.runLogs arena]
  unfold prune at ok
  rw [built] at ok
  cases ok
  unfold Pruning.preface
  simp only [List.append_assoc]
  rfl

theorem Document.pruneWarns {d : Document} {requested : List ShortName} {pruned : Logged Pruned}
    (arena : d.Arena) (ok : d.prune requested = .ok pruned) :
    .emptyClosure ∈ pruned.events ↔ requested = [] := by
  obtain ⟨g, _, log⟩ := Document.pruneEvents arena ok
  rw [log, List.mem_append, Pruning.prefaceWarns]
  refine or_iff_left fun inside => ?_
  obtain ⟨kind, listed, logged⟩ := List.mem_flatMap.mp inside
  exact absurd (Pruning.memBlock arena listed logged) Bool.false_ne_true

theorem removalLogAccounts {d : Document} (reached : d.Reached) {requested : List ShortName}
    {pruned : Logged Pruned} (ok : d.prune requested = .ok pruned) :
    ∃ g before, d.navigation = .ok g ∧ d.Journal requested g pruned before := by
  have arena := reached.arena
  obtain ⟨g, built, log⟩ := Document.pruneEvents arena ok
  obtain ⟨g', built', closure, document, report⟩ := Document.pruneParts ok
  cases built.symm.trans built'
  refine ⟨g, Pruning.preface g requested, built, ?_⟩
  constructor
  case closure => exact closure
  case log => exact log
  case preceding => exact fun e logged => Pruning.prefaceOfNoPass logged
  case blocks =>
    intro kind listed
    rw [document, report, Pruning.countOfRun listed]
    exact ⟨_, Pruning.blockNamed arena listed,
      Pruning.removedPermDetached arena built (.refl d fun _ => False) listed,
      (Pruning.turnsOfKind arena built listed).symm, rfl⟩
  case levels =>
    intro kind listed
    rw [report, Pruning.countOfRun listed]
    exact Pruning.blockLevels arena listed
  case total =>
    have none : (Pruning.preface g requested).countP Event.isRemoval = 0 :=
      List.countP_eq_zero.mpr fun e logged removal =>
        Bool.false_ne_true ((Pruning.prefaceOfNoPass logged).symm.trans (Event.removalOfPass removal))
    rw [log, List.countP_append, none, Pruning.blocksRemove arena, report, Nat.zero_add]
  case repetitions =>
    obtain ⟨_, types, associations⟩ := Document.navigationParts built
    rw [Pruning.prefaceRepeats, g.eventsRepeat, ← Document.namedCount, ← Document.namedCount,
      ← Document.typeNames built, ← Document.associationNames built, List.length_map, List.length_map]
  case repetitionLevels => exact fun e _ repetition => Event.repetitionLevel repetition
  case warning => exact Document.pruneWarns arena ok

def listedTwice : String :=
  "<Schema><EntityContainer><EntityContainer><EntitySet EntityType='N.B'/></EntityContainer>" ++
  "</EntityContainer><EntityType Name='A'/><EntityType Name='B'/><EntityType Name='x.B'/></Schema>"

theorem removedOnceLogged : ∃ d pruned before, Document.parse listedTwice = .ok d ∧
    d.prune [⟨"A"⟩] = .ok pruned ∧ pruned.events = before ++
      [.removed .entitySet "", .passDone .entitySet 1, .removed .entityType "B",
        .removed .entityType "x.B", .passDone .entityType 2, .passDone .association 0,
        .passDone .functionImport 0, .passDone .navigationProperty 0] ∧
    pruned.events.countP Event.isRemoval = 3 ∧ before.countP Event.isRepetition = 1 ∧
    .emptyClosure ∉ pruned.events := by
  have chars : listedTwice.toList = _ :=
    Document.charsAppend (Document.charsOf rfl) (Document.charsOf rfl)
  obtain ⟨d, read, facts⟩ := Document.okWith (x := Document.parse listedTwice)
    (p := fun d => decide ((d.named .entityType).length = 3 ∧ (d.named .association).length = 0) &&
      (d.prune [⟨"A"⟩]).toOption.any fun pruned : Logged Pruned =>
        decide (pruned.value.report.total = 3) &&
          d.navigation.toOption.any fun g : NavigationGraph =>
            decide (g.entityNames.size = 2 ∧ g.associationNames.size = 0 ∧
              ElementKind.removable.flatMap (Pruning.block g (g.closure [⟨"A"⟩]).value d) =
                [.removed .entitySet "", .passDone .entitySet 1, .removed .entityType "B",
                  .removed .entityType "x.B", .passDone .entityType 2, .passDone .association 0,
                  .passDone .functionImport 0, .passDone .navigationProperty 0]))
    (by rw [Document.parseChars chars]; decide +kernel)
  obtain ⟨names, runs⟩ := Bool.and_eq_true_iff.mp facts
  obtain ⟨types, associations⟩ := of_decide_eq_true names
  obtain ⟨pruned, ok, found⟩ := Document.okWith runs
  obtain ⟨three, built⟩ := Bool.and_eq_true_iff.mp found
  obtain ⟨g, built, known⟩ := Document.okWith built
  obtain ⟨typeKeys, associationKeys, blocks⟩ := of_decide_eq_true known
  obtain ⟨g', before, built', journal⟩ := removalLogAccounts (.parsed read) ok
  cases built.symm.trans built'
  have repetitions := journal.repetitions
  refine ⟨d, pruned, before, read, ok, ?_, journal.total.trans (of_decide_eq_true three), by omega,
    fun warned => List.cons_ne_nil _ _ (journal.warning.mp warned)⟩
  rw [journal.log, journal.closure, blocks]

end EdmxPruning
