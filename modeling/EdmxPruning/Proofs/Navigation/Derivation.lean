import EdmxPruning.Proofs.Navigation.Grouping
import EdmxPruning.Proofs.Navigation.Reachability

/-! How a closure was derived. The log names every dependency with the name that led to it, and so it is a
forest that grows from the requested names leaf by leaf. Because the search goes level by level, no name has
a shorter way to the requested ones than the way in the forest. -/
namespace EdmxPruning

def Event.derivation? : Event → Option (ShortName × ShortName)
  | .dependencyAdded entityType source => some (entityType, source)
  | _ => none

namespace NavigationGraph

inductive Away (g : NavigationGraph) (start : NameSet) : Nat → ShortName → Prop where
  | asked {n} (inside : n ∈ start) : Away g start 0 n
  | step {k n m} (before : Away g start k n) (neighbor : m ∈ g.neighbors n) : Away g start (k + 1) m

structure Distance (g : NavigationGraph) (start : NameSet) (k : Nat) (n : ShortName) : Prop where
  away : g.Away start k n
  least : ∀ j, g.Away start j n → k ≤ j

def derivation (visits : List Visit) : List (ShortName × ShortName) :=
  visits.flatMap fun visit => visit.added.map (·, visit.name)

structure Derivation (g : NavigationGraph) (names : List ShortName)
    (steps : List (ShortName × ShortName)) : Prop where
  once : (steps.map Prod.fst).Nodup
  dependencies : ∀ m, m ∈ steps.map Prod.fst ↔ m ∈ (g.closure names).value.dependencies
  reached : ∀ m, m ∈ steps.map Prod.fst ↔ m ∉ names ∧ ∃ n ∈ names, g.Reaches n m
  grown : ∀ earlier m n later, steps = earlier ++ (m, n) :: later →
    m ∈ g.neighbors n ∧ (n ∈ names ∨ n ∈ earlier.map Prod.fst)
  shortest : ∀ m n, (m, n) ∈ steps →
    ∃ k, g.Distance (.ofList names) k n ∧ g.Distance (.ofList names) (k + 1) m
  ordered : steps.Pairwise fun earlier later => ∀ i j,
    g.Distance (.ofList names) i earlier.1 → g.Distance (.ofList names) j later.1 → i ≤ j

theorem Distance.unique {g : NavigationGraph} {start : NameSet} {n : ShortName} {i j : Nat}
    (one : g.Distance start i n) (other : g.Distance start j n) : i = j :=
  Nat.le_antisymm (one.least j other.away) (other.least i one.away)

theorem derivedNames (visits : List Visit) :
    (derivation visits).map Prod.fst = visits.flatMap Visit.added := by
  unfold derivation
  rw [List.map_flatMap]
  congr 1
  funext visit
  simp [Function.comp_def]

theorem visitDerives (g : NavigationGraph) (visit : Visit) :
    (g.visitEvents visit).filterMap Event.derivation? = visit.added.map (·, visit.name) := by
  unfold visitEvents
  rw [List.filterMap_append, List.filterMap_map, List.filterMap_map]
  rw [show Event.derivation? ∘ Event.unresolvedRelationship visit.name = fun _ => none from rfl,
    List.filterMap_none, List.nil_append]
  exact congrFun List.filterMap_eq_map visit.added

theorem closureDerives (g : NavigationGraph) (names : List ShortName) :
    (g.closure names).events.filterMap Event.derivation? = derivation (g.visits (.ofList names)) := by
  unfold closure derivation
  rw [List.filterMap_append, List.filterMap_map]
  rw [show Event.derivation? ∘ Event.undefinedRequest = fun _ => none from rfl, List.filterMap_none,
    List.nil_append, List.filterMap_flatMap]
  congr 1
  funext visit
  exact g.visitDerives visit

theorem splitAt {α : Type} {front back earlier later : List α} {a : α}
    (split : front ++ back = earlier ++ a :: later) :
    a ∈ front ∨ ∃ rest, earlier = front ++ rest ∧ back = rest ++ a :: later := by
  rcases List.append_eq_append_iff.mp split with behind | ⟨rest, own, tail⟩
  · exact .inr behind
  · cases rest with
    | nil => exact .inr ⟨[], by rw [own, List.append_nil, List.append_nil], tail.symm⟩
    | cons b rest =>
      obtain ⟨rfl, _⟩ := List.cons.inj tail
      exact .inl (own ▸ List.mem_append_right _ List.mem_cons_self)

section Growing

variable {g : NavigationGraph} {queue : List ShortName} {known : NameSet} {visits : List Visit}
  (search : g.Search queue known visits)
include search

theorem addedOnce : (visits.flatMap Visit.added).Nodup ∧ ∀ m ∈ visits.flatMap Visit.added, m ∉ known := by
  induction search with
  | done => exact ⟨.nil, fun m inside => nomatch inside⟩
  | @visit name queue known visits next ih =>
    obtain ⟨distinct, fresh⟩ := ih
    have apart : ∀ m ∈ visits.flatMap Visit.added, m ∉ known ∧ m ∉ g.added name known :=
      fun m later => not_or.mp fun before => fresh m later (NameSet.memInsertAll.mpr before)
    rw [List.flatMap_cons]
    refine ⟨List.nodup_append.mpr ⟨NameSet.nodup _, distinct, ?_⟩, fun m inside => ?_⟩
    · intro m now other later same
      exact (apart other later).2 (same ▸ now)
    · rcases List.mem_append.mp inside with now | later
      · exact (memAdded.mp now).2
      · exact (apart m later).1

theorem stepsGrow (earlier later : List (ShortName × ShortName)) (m n : ShortName)
    (split : derivation visits = earlier ++ (m, n) :: later) :
    m ∈ g.neighbors n ∧ (n ∈ queue ∨ n ∈ earlier.map Prod.fst) := by
  induction search generalizing earlier with
  | done => simp [derivation] at split
  | @visit name queue known visits next ih =>
    rcases splitAt split with own | ⟨rest, before, after⟩
    · obtain ⟨_, added, same⟩ := List.mem_map.mp own
      cases same
      exact ⟨(memAdded.mp added).1, .inl List.mem_cons_self⟩
    · obtain ⟨neighbor, source⟩ := ih rest after
      refine ⟨neighbor, ?_⟩
      rw [before, List.map_append, List.mem_append]
      rcases source with waiting | found
      · rcases List.mem_append.mp waiting with old | new
        · exact .inl (List.mem_cons_of_mem _ old)
        · exact .inr (.inl (by simpa using new))
      · exact .inr (.inr found)

end Growing

/- The queue while the search visits a level: what is left of the level, and behind it what was found of
the next one. -/
structure Level (g : NavigationGraph) (start : NameSet) (k : Nat) (left found : List ShortName)
    (known : NameSet) : Prop where
  here : ∀ n ∈ left, g.Distance start k n
  next : ∀ n ∈ found, g.Distance start (k + 1) n
  met : ∀ j ≤ k, ∀ n, g.Away start j n → n ∈ known
  settled : g.Settled (left ++ found) known

namespace Level

variable {g : NavigationGraph} {start : NameSet} {k : Nat} {left found : List ShortName}
  {known : NameSet} {name : ShortName}

theorem first (g : NavigationGraph) (start : NameSet) : g.Level start 0 start.names [] start where
  here n asked := ⟨.asked asked, fun j _ => Nat.zero_le j⟩
  next n none := nomatch none
  met j zero n away := by
    cases away with
    | asked inside => exact inside
    | step => exact absurd zero (Nat.not_succ_le_zero _)
  settled n asked := .inl (List.mem_append_left _ asked)

/- A name that is not known yet is farther away than the level, but one step is enough. -/
theorem addedNext (level : g.Level start k (name :: left) found known) {m : ShortName}
    (added : m ∈ g.added name known) : g.Distance start (k + 1) m where
  away := .step (level.here name List.mem_cons_self).away (memAdded.mp added).1
  least j away := by
    by_contra less
    exact (memAdded.mp added).2 (level.met j (by omega) m away)

theorem visitSteps (level : g.Level start k (name :: left) found known) {m n : ShortName}
    (step : (m, n) ∈ (g.added name known).map (·, name)) :
    g.Distance start k n ∧ g.Distance start (k + 1) m := by
  obtain ⟨_, added, same⟩ := List.mem_map.mp step
  cases same
  exact ⟨level.here name List.mem_cons_self, level.addedNext added⟩

theorem visit (level : g.Level start k (name :: left) found known) :
    g.Level start k left (found ++ g.added name known) (known.insertAll (g.added name known)) where
  here n waiting := level.here n (List.mem_cons_of_mem _ waiting)
  next n waiting := (List.mem_append.mp waiting).elim (level.next n) level.addedNext
  met j near n away := NameSet.memInsertAll.mpr (.inl (level.met j near n away))
  settled := by
    rw [← List.append_assoc]
    exact settledVisit level.settled

theorem descend (level : g.Level start k [] found known) : g.Level start (k + 1) found [] known where
  here := level.next
  next n none := nomatch none
  met j near n away := by
    cases away with
    | asked inside => exact level.met 0 (Nat.zero_le k) n (.asked inside)
    | @step i source _ before neighbor =>
      have close : i ≤ k := by omega
      rcases level.settled source (level.met i close source before) with waiting | closed
      · have far := (level.next source waiting).least i before
        omega
      · exact closed n neighbor
  settled := by
    rw [List.append_nil]
    exact level.settled

theorem ofNext (level : g.Level start k left found known) {queue : List ShortName}
    (waiting : left ++ found = name :: queue) : ∃ j left' found', k ≤ j ∧
      g.Level start j (name :: left') found' known ∧ left' ++ found' = queue := by
  cases left with
  | nil =>
    obtain rfl : found = name :: queue := waiting
    exact ⟨k + 1, queue, [], Nat.le_succ k, level.descend, List.append_nil queue⟩
  | cons first rest =>
    obtain ⟨rfl, same⟩ := List.cons.inj waiting
    exact ⟨k, rest, found, Nat.le_refl k, level, same⟩

end Level

/- The run of the search through the levels: each step leads from one level to the next one, and no step
starts from a level before the one that the search has come to. -/
theorem stepsDescend {g : NavigationGraph} {start : NameSet} {k : Nat} {left found : List ShortName}
    {queue : List ShortName} {known : NameSet} {visits : List Visit}
    (search : g.Search queue known visits) (level : g.Level start k left found known)
    (waiting : left ++ found = queue) :
    (∀ m n, (m, n) ∈ derivation visits →
      ∃ j, k ≤ j ∧ g.Distance start j n ∧ g.Distance start (j + 1) m) ∧
    (derivation visits).Pairwise fun earlier later => ∀ i j,
      g.Distance start i earlier.1 → g.Distance start j later.1 → i ≤ j := by
  induction search generalizing k left found with
  | done => exact ⟨fun m n inside => (nomatch inside), .nil⟩
  | @visit name queue known visits next ih =>
    obtain ⟨j, left', found', near, now, same⟩ := level.ofNext waiting
    obtain ⟨levels, ordered⟩ := ih now.visit (by rw [← List.append_assoc, same])
    have close : ∀ step ∈ (g.added name known).map (·, name), ∀ i,
        g.Distance start i step.1 → i = j + 1 :=
      fun step inside i distance => distance.unique (now.visitSteps inside).2
    have far : ∀ step ∈ derivation visits, ∀ i, g.Distance start i step.1 → j + 1 ≤ i := by
      intro step inside i distance
      obtain ⟨i', further, _, other⟩ := levels step.1 step.2 inside
      have same := distance.unique other
      omega
    show (∀ m n, (m, n) ∈ (g.added name known).map (·, name) ++ derivation visits → _) ∧
      ((g.added name known).map (·, name) ++ derivation visits).Pairwise _
    refine ⟨fun m n inside => ?_, List.pairwise_append.mpr
      ⟨List.pairwise_of_forall_mem_list fun a ha b hb i i' one other => ?_, ordered,
        fun a ha b hb i i' one other => ?_⟩⟩
    · rcases List.mem_append.mp inside with new | later
      · exact ⟨j, near, now.visitSteps new⟩
      · obtain ⟨i, further, distances⟩ := levels m n later
        exact ⟨i, Nat.le_trans near further, distances⟩
    · exact Nat.le_of_eq ((close a ha i one).trans (close b hb i' other).symm)
    · exact close a ha i one ▸ far b hb i' other

theorem closureDerivation (g : NavigationGraph) (names : List ShortName) :
    g.Derivation names (derivation (g.visits (.ofList names))) := by
  have search := searchOfRequest g (.ofList names)
  obtain ⟨once, fresh⟩ := addedOnce search
  obtain ⟨levels, ordered⟩ := stepsDescend search (Level.first g _) (List.append_nil _)
  have found (m : ShortName) : m ∈ (derivation (g.visits (.ofList names))).map Prod.fst ↔
      m ∈ (g.closure names).value.dependencies := by
    rw [derivedNames, Closure.dependencies, NameSet.memDiff, entitiesOfClosure, requestedOfClosure]
    constructor
    · exact fun inside => ⟨.inr inside, fun asked => fresh m inside (NameSet.memOfList.mpr asked)⟩
    · exact fun ⟨kept, other⟩ => kept.resolve_left other
  constructor
  case once => rwa [derivedNames]
  case dependencies => exact found
  case reached =>
    intro m
    rw [found, Closure.dependencies, NameSet.memDiff, requestedOfClosure, memClosure, and_comm]
  case grown =>
    intro earlier m n later split
    obtain ⟨neighbor, source⟩ := stepsGrow search earlier later m n split
    exact ⟨neighbor, source.imp_left NameSet.memOfList.mp⟩
  case shortest =>
    intro m n inside
    obtain ⟨k, _, distances⟩ := levels m n inside
    exact ⟨k, distances⟩
  case ordered => exact ordered

theorem visitsWarnNothing (g : NavigationGraph) (visits : List Visit) (n : ShortName) :
    .undefinedRequest n ∉ visits.flatMap g.visitEvents := by
  simp [visitEvents]

end NavigationGraph

open NavigationGraph in
theorem closureIsDerivedOverShortestWays (g : NavigationGraph) (names : List ShortName) :
    g.Derivation names ((g.closure names).events.filterMap Event.derivation?) ∧
    ∃ (warned : List ShortName) (rest : List Event),
      (g.closure names).events = warned.map .undefinedRequest ++ rest ∧
      (∀ n, .undefinedRequest n ∉ rest) ∧ warned.Pairwise (· < ·) ∧
      ∀ n, n ∈ warned ↔ n ∈ names ∧ n ∉ g.entityNames := by
  refine ⟨?_, (g.undefined (.ofList names)).names, _, rfl, g.visitsWarnNothing _,
    (g.undefined (.ofList names)).ascending, fun n => ?_⟩
  · rw [closureDerives]
    exact g.closureDerivation names
  · rw [NameSet.memNames, undefined, NameSet.memFilter, NameSet.memOfList, Option.isNone_iff_eq_none,
      entityTypeMissing]

def crossing : NavigationGraph where
  sections := ⟨[], []⟩
  entityTypes := [⟨⟨"A"⟩, 0, [⟨"R"⟩, ⟨"S"⟩]⟩, ⟨⟨"B"⟩, 1, [⟨"T"⟩, ⟨"R"⟩]⟩, ⟨⟨"C"⟩, 2, [⟨"T"⟩]⟩,
    ⟨⟨"E"⟩, 3, []⟩]
  associations := [⟨⟨"R"⟩, 4, [⟨"A"⟩, ⟨"B"⟩]⟩, ⟨⟨"S"⟩, 5, [⟨"A"⟩, ⟨"C"⟩]⟩,
    ⟨⟨"T"⟩, 6, [⟨"C"⟩, ⟨"D"⟩, ⟨"B"⟩]⟩]

theorem crossingDerived :
    (crossing.closure [⟨"X"⟩, ⟨"A"⟩]).events = [.undefinedRequest ⟨"X"⟩, .dependencyAdded ⟨"B"⟩ ⟨"A"⟩,
      .dependencyAdded ⟨"C"⟩ ⟨"A"⟩, .dependencyAdded ⟨"D"⟩ ⟨"B"⟩] ∧
    crossing.Derivation [⟨"X"⟩, ⟨"A"⟩] [(⟨"B"⟩, ⟨"A"⟩), (⟨"C"⟩, ⟨"A"⟩), (⟨"D"⟩, ⟨"B"⟩)] := by
  have logged : (crossing.closure [⟨"X"⟩, ⟨"A"⟩]).events = [.undefinedRequest ⟨"X"⟩,
      .dependencyAdded ⟨"B"⟩ ⟨"A"⟩, .dependencyAdded ⟨"C"⟩ ⟨"A"⟩, .dependencyAdded ⟨"D"⟩ ⟨"B"⟩] := by
    decide +kernel
  have derived := (closureIsDerivedOverShortestWays crossing [⟨"X"⟩, ⟨"A"⟩]).1
  rw [logged] at derived
  exact ⟨logged, derived⟩

end EdmxPruning
