import Mathlib.Data.List.Perm.Subperm
import Mathlib.Logic.Relation
import EdmxPruning.Navigation.Closure
import EdmxPruning.Proofs.Document.Removal
import EdmxPruning.Proofs.Metadata.NameSets
import EdmxPruning.Proofs.Navigation.Definitions

/-! The closure of a request is what navigation reaches from it. The search is a loop over a queue;
it ends with an empty queue because every name is queued once, and then every known name has been
visited, so the known names are closed under navigation. -/
namespace EdmxPruning
open Relation (ReflTransGen)

namespace NavigationGraph

def added (g : NavigationGraph) (name : ShortName) (known : NameSet) : List ShortName :=
  ((g.neighbors name).diff known).names

inductive Search (g : NavigationGraph) : List ShortName → NameSet → List Visit → Prop where
  | done {known} : Search g [] known []
  | visit {name queue known visits}
      (next : Search g (queue ++ g.added name known) (known.insertAll (g.added name known)) visits) :
      Search g (name :: queue) known (⟨name, g.added name known⟩ :: visits)

theorem memAdded {g : NavigationGraph} {name m : ShortName} {known : NameSet} :
    m ∈ g.added name known ↔ m ∈ g.neighbors name ∧ m ∉ known := NameSet.memDiff

def unmet (g : NavigationGraph) (known : NameSet) : List ShortName :=
  (g.associations.flatMap Association.ends).filter (· ∉ known)

theorem endsListed {g : NavigationGraph} {relationship m : ShortName} (h : m ∈ g.ends relationship) :
    m ∈ g.associations.flatMap Association.ends := by
  unfold ends at h
  cases found : g.association? relationship with
  | none => simp [found] at h
  | some a =>
    rw [found] at h
    exact List.mem_flatMap.mpr ⟨a, List.mem_of_find?_eq_some found, h⟩

theorem addedUnmet {g : NavigationGraph} {name m : ShortName} {known : NameSet}
    (h : m ∈ g.added name known) : m ∈ g.unmet known := by
  obtain ⟨neighbor, new⟩ := memAdded.mp h
  obtain ⟨_, relationship, _, ends⟩ := Document.memNeighbors.mp neighbor
  exact List.mem_filter.mpr ⟨endsListed ends, decide_eq_true new⟩

/- What a visit adds to the queue, it takes from the ends that were not met. So queue and unmet ends
together shrink with each visit, though the queue alone may grow. -/
theorem unmetDecreases (g : NavigationGraph) (name : ShortName) (known : NameSet) :
    (g.added name known).length + (g.unmet (known.insertAll (g.added name known))).length ≤
      (g.unmet known).length := by
  have fewer : (g.added name known).length ≤
      ((g.unmet known).filter (· ∈ g.added name known)).length :=
    ((NameSet.nodup _).subperm fun m h =>
      List.mem_filter.mpr ⟨addedUnmet h, decide_eq_true h⟩).length_le
  have later : g.unmet (known.insertAll (g.added name known)) =
      (g.unmet known).filter (fun m => !decide (m ∈ g.added name known)) := by
    unfold unmet
    rw [List.filter_filter]
    refine List.filter_congr fun m _ => ?_
    rw [Bool.eq_iff_iff, decide_eq_true_eq, NameSet.memInsertAll]
    simp [and_comm]
  have both := List.length_eq_length_filter_add (l := g.unmet known)
    (fun m => decide (m ∈ g.added name known))
  rw [later]
  omega

theorem searchEnds {g : NavigationGraph} {fuel : Nat} {queue : List ShortName} {known : NameSet}
    (enough : queue.length + (g.unmet known).length ≤ fuel) :
    g.Search queue known (g.visitsWithin fuel queue known) := by
  induction fuel generalizing queue known with
  | zero =>
    have empty : queue = [] := List.length_eq_zero_iff.mp (by omega)
    subst empty
    exact .done
  | succ fuel ih =>
    cases queue with
    | nil => exact .done
    | cons name queue =>
      refine .visit (ih ?_)
      have decreases := unmetDecreases g name known
      rw [List.length_cons] at enough
      rw [List.length_append]
      omega

theorem searchOfRequest (g : NavigationGraph) (requested : NameSet) :
    g.Search requested.names requested (g.visits requested) := by
  refine searchEnds (Nat.add_le_add_left ?_ _)
  exact List.length_filter_le _ _

theorem visitsOfSearch {g : NavigationGraph} {queue : List ShortName} {known : NameSet}
    {visits : List Visit} (search : g.Search queue known visits) {fuel : Nat}
    (enough : visits.length ≤ fuel) : g.visitsWithin fuel queue known = visits := by
  induction search generalizing fuel with
  | done => cases fuel <;> rfl
  | visit next ih =>
    cases fuel with
    | zero => simp at enough
    | succ fuel =>
      rw [List.length_cons] at enough
      exact congrArg _ (ih (by omega))

def Reaches (g : NavigationGraph) : ShortName → ShortName → Prop :=
  ReflTransGen fun n m => m ∈ g.neighbors n

theorem addedReached {g : NavigationGraph} {queue : List ShortName} {known : NameSet}
    {visits : List Visit} (search : g.Search queue known visits) {m : ShortName}
    (h : m ∈ visits.flatMap Visit.added) : ∃ n ∈ queue, g.Reaches n m := by
  induction search with
  | done => cases h
  | @visit name queue known visits next ih =>
    have own {k : ShortName} (hk : k ∈ g.added name known) : g.Reaches name k :=
      .single (memAdded.mp hk).1
    rw [List.flatMap_cons, List.mem_append] at h
    rcases h with now | later
    · exact ⟨name, List.mem_cons_self, own now⟩
    · obtain ⟨n, hn, reaches⟩ := ih later
      rcases List.mem_append.mp hn with waiting | new
      · exact ⟨n, List.mem_cons_of_mem _ waiting, reaches⟩
      · exact ⟨name, List.mem_cons_self, (own new).trans reaches⟩

/- The invariant of the loop: a known name waits in the queue, or its neighbors are known. -/
def Settled (g : NavigationGraph) (queue : List ShortName) (known : NameSet) : Prop :=
  ∀ n ∈ known, n ∈ queue ∨ ∀ m ∈ g.neighbors n, m ∈ known

theorem settledVisit {g : NavigationGraph} {name : ShortName} {queue : List ShortName}
    {known : NameSet} (settled : g.Settled (name :: queue) known) :
    g.Settled (queue ++ g.added name known) (known.insertAll (g.added name known)) := by
  intro n hn
  have kept {m : ShortName} (h : m ∈ known) : m ∈ known.insertAll (g.added name known) :=
    NameSet.memInsertAll.mpr (.inl h)
  rcases NameSet.memInsertAll.mp hn with old | new
  · rcases settled n old with waiting | closed
    · rcases List.mem_cons.mp waiting with same | later
      · subst n
        refine .inr fun m hm => ?_
        by_cases seen : m ∈ known
        · exact kept seen
        · exact NameSet.memInsertAll.mpr (.inr (memAdded.mpr ⟨hm, seen⟩))
      · exact .inl (List.mem_append_left _ later)
    · exact .inr fun m hm => kept (closed m hm)
  · exact .inl (List.mem_append_right _ new)

theorem settledAtEnd {g : NavigationGraph} {queue : List ShortName} {known : NameSet}
    {visits : List Visit} (search : g.Search queue known visits) (settled : g.Settled queue known) :
    g.Settled [] (known.insertAll (visits.flatMap Visit.added)) := by
  induction search with
  | done => exact settled
  | visit next ih =>
    have after := ih (settledVisit settled)
    rw [List.flatMap_cons]
    unfold NameSet.insertAll at *
    rw [List.foldl_append]
    exact after

theorem entitiesOfClosure {g : NavigationGraph} {names : List ShortName} {m : ShortName} :
    m ∈ (g.closure names).value.entities ↔
      m ∈ names ∨ m ∈ (g.visits (.ofList names)).flatMap Visit.added := by
  show m ∈ NameSet.insertAll _ _ ↔ _
  rw [NameSet.memInsertAll, NameSet.memOfList]

theorem requestedOfClosure {g : NavigationGraph} {names : List ShortName} {m : ShortName} :
    m ∈ (g.closure names).value.requested ↔ m ∈ names := NameSet.memOfList

theorem closureClosed {g : NavigationGraph} {names : List ShortName} {n m : ShortName}
    (kept : n ∈ (g.closure names).value.entities) (step : m ∈ g.neighbors n) :
    m ∈ (g.closure names).value.entities := by
  have start : g.Settled (NameSet.ofList names).names (.ofList names) := fun n hn => .inl hn
  rcases settledAtEnd (searchOfRequest g _) start n kept with waiting | closed
  · cases waiting
  · exact closed m step

theorem endsKept {g : NavigationGraph} {names : List ShortName} {n relationship m : ShortName}
    (kept : n ∈ (g.closure names).value.entities) (follows : relationship ∈ g.relationships n)
    (ends : m ∈ g.ends relationship) : m ∈ (g.closure names).value.entities := by
  by_cases same : m = n
  · exact same ▸ kept
  · exact closureClosed kept (Document.memNeighbors.mpr ⟨same, relationship, follows, ends⟩)

theorem memClosure {g : NavigationGraph} {names : List ShortName} {m : ShortName} :
    m ∈ (g.closure names).value.entities ↔ ∃ n ∈ names, g.Reaches n m := by
  constructor
  · intro h
    rcases entitiesOfClosure.mp h with asked | found
    · exact ⟨m, asked, .refl⟩
    · obtain ⟨n, hn, reaches⟩ := addedReached (searchOfRequest g _) found
      exact ⟨n, NameSet.memOfList.mp hn, reaches⟩
  · intro given
    obtain ⟨n, hn, reaches⟩ := given
    induction reaches with
    | refl => exact entitiesOfClosure.mpr (.inl hn)
    | tail _ step ih => exact closureClosed ih step

theorem closureLeast {g : NavigationGraph} {names : List ShortName} {inside : ShortName → Prop}
    (asked : ∀ n ∈ names, inside n) (closed : ∀ n, inside n → ∀ m ∈ g.neighbors n, inside m)
    {m : ShortName} (h : m ∈ (g.closure names).value.entities) : inside m := by
  obtain ⟨n, hn, reaches⟩ := memClosure.mp h
  induction reaches with
  | refl => exact asked n hn
  | tail _ step ih =>
    exact closed _ (ih (memClosure.mpr ⟨n, hn, by assumption⟩)) _ step

theorem closureMonotone {g : NavigationGraph} {names more : List ShortName}
    (fewer : ∀ n ∈ names, n ∈ more) {m : ShortName} (h : m ∈ (g.closure names).value.entities) :
    m ∈ (g.closure more).value.entities := by
  obtain ⟨n, hn, reaches⟩ := memClosure.mp h
  exact memClosure.mpr ⟨n, fewer n hn, reaches⟩

theorem closureAgrees {g g' : NavigationGraph} {names : List ShortName} {inside : ShortName → Prop}
    (asked : ∀ n ∈ names, inside n) (closed : ∀ n, inside n → ∀ m ∈ g.neighbors n, inside m)
    (same : ∀ n, inside n → ∀ m, m ∈ g'.neighbors n ↔ m ∈ g.neighbors n) :
    (g'.closure names).value = (g.closure names).value := by
  have entities : (g'.closure names).value.entities = (g.closure names).value.entities := by
    refine NameSet.memExt fun m => ⟨fun kept => ?_, fun kept => ?_⟩
    · have both : m ∈ (g.closure names).value.entities ∧ inside m := by
        apply closureLeast (fun n hn => ⟨memClosure.mpr ⟨n, hn, .refl⟩, asked n hn⟩) _ kept
        intro n known k step
        have stepBefore := (same n known.2 k).mp step
        exact ⟨closureClosed known.1 stepBefore, closed n known.2 k stepBefore⟩
      exact both.1
    · have both : m ∈ (g'.closure names).value.entities ∧ inside m := by
        apply closureLeast (fun n hn => ⟨memClosure.mpr ⟨n, hn, .refl⟩, asked n hn⟩) _ kept
        intro n known k step
        exact ⟨closureClosed known.1 ((same n known.2 k).mpr step), closed n known.2 k step⟩
      exact both.1
  exact congrArg (Closure.mk (NameSet.ofList names)) entities

theorem closureIdempotent (g : NavigationGraph) (names : List ShortName) :
    (g.closure (g.closure names).value.entities.names).value.entities =
      (g.closure names).value.entities := by
  refine NameSet.memExt fun m => ⟨fun h => ?_, fun h => memClosure.mpr ⟨m, h, .refl⟩⟩
  exact closureLeast (fun n hn => hn) (fun n hn m step => closureClosed hn step) h

theorem closureAdditive (g : NavigationGraph) (left right : List ShortName) :
    (g.closure (left ++ right)).value.entities =
      (g.closure left).value.entities.insertAll (g.closure right).value.entities.names := by
  refine NameSet.memExt fun m => ?_
  rw [NameSet.memInsertAll, NameSet.memNames, memClosure, memClosure, memClosure]
  constructor
  · intro given
    obtain ⟨n, hn, reaches⟩ := given
    rcases List.mem_append.mp hn with inLeft | inRight
    · exact .inl ⟨n, inLeft, reaches⟩
    · exact .inr ⟨n, inRight, reaches⟩
  · intro given
    rcases given with ⟨n, hn, reaches⟩ | ⟨n, hn, reaches⟩
    · exact ⟨n, List.mem_append_left _ hn, reaches⟩
    · exact ⟨n, List.mem_append_right _ hn, reaches⟩

theorem requestedKept {g : NavigationGraph} {names : List ShortName} {n : ShortName}
    (asked : n ∈ (g.closure names).value.requested) : n ∈ (g.closure names).value.entities :=
  entitiesOfClosure.mpr (.inl (requestedOfClosure.mp asked))

theorem sizeOfClosure (g : NavigationGraph) (names : List ShortName) :
    (g.closure names).value.size =
      (g.closure names).value.requested.size + (g.closure names).value.dependencies.size :=
  NameSet.sizeOfPart fun _ => requestedKept

end NavigationGraph

open NavigationGraph in
theorem closureIsWhatNavigationReaches {d : Document} {g : NavigationGraph}
    (built : d.navigation = .ok g) (names : List ShortName) :
    let closure := (g.closure names).value
    -- The loop ends with an empty queue, however long it might have gone on.
    (g.Search closure.requested.names closure.requested (g.visits closure.requested) ∧
      ∀ fuel, (g.visits closure.requested).length ≤ fuel →
        g.visitsWithin fuel closure.requested.names closure.requested =
          g.visits closure.requested) ∧
    (∀ n m, m ∈ g.neighbors n ↔ d.Leads n m) ∧
    (∀ m, m ∈ closure.entities ↔ ∃ n ∈ names, ReflTransGen d.Leads n m) ∧
    ((∀ n ∈ names, n ∈ closure.entities) ∧
      (∀ n ∈ closure.entities, ∀ m, d.Leads n m → m ∈ closure.entities) ∧
      ∀ inside : ShortName → Prop, (∀ n ∈ names, inside n) →
        (∀ n, inside n → ∀ m, d.Leads n m → inside m) → ∀ m ∈ closure.entities, inside m) ∧
    (∀ more, (∀ n ∈ names, n ∈ more) →
      ∀ m ∈ closure.entities, m ∈ (g.closure more).value.entities) ∧
    (g.closure closure.entities.names).value.entities = closure.entities ∧
    (∀ more, (g.closure (names ++ more)).value.entities =
      closure.entities.insertAll (g.closure more).value.entities.names) ∧
    (∀ n, n ∈ closure.requested ↔ n ∈ names) ∧
    (∀ n, n ∈ closure.dependencies ↔ n ∈ closure.entities ∧ n ∉ closure.requested) ∧
    closure.size = closure.requested.size + closure.dependencies.size := by
  intro closure
  have search := searchOfRequest g closure.requested
  have steps : (fun n m => m ∈ g.neighbors n) = d.Leads :=
    funext fun n => funext fun m => propext (Document.neighborIffLeads built)
  have leads {n m : ShortName} (h : d.Leads n m) : m ∈ g.neighbors n :=
    (Document.neighborIffLeads built).mpr h
  refine ⟨⟨search, fun fuel enough => visitsOfSearch search enough⟩,
    fun n m => Document.neighborIffLeads built, fun m => ?_,
    ⟨fun n hn => memClosure.mpr ⟨n, hn, .refl⟩, fun n hn m h => closureClosed hn (leads h), ?_⟩,
    fun more fewer m => closureMonotone fewer, closureIdempotent g names, closureAdditive g names,
    fun n => requestedOfClosure, fun n => NameSet.memDiff, sizeOfClosure g names⟩
  · rw [← steps]
    exact memClosure
  · intro inside asked closed m hm
    exact closureLeast asked
      (fun n hn k step => closed n hn k ((Document.neighborIffLeads built).mp step)) hm

def oneWay : String :=
  "<Schema><EntityContainer/><EntityType Name=\"A\"><NavigationProperty Relationship=\"R\"/>" ++
  "</EntityType><Association Name=\"R\"><End Type=\"B\"/></Association></Schema>"

theorem closureOfOneWay : ∃ d g, Document.parse oneWay = .ok d ∧ d.navigation = .ok g ∧
    ReflTransGen d.Leads ⟨"A"⟩ ⟨"B"⟩ := by
  obtain ⟨d, read, found⟩ := Document.okWith (x := Document.parse oneWay)
    (p := fun d => d.navigation.toOption.any fun g =>
      ⟨"B"⟩ ∈ (g.closure [⟨"A"⟩]).value.entities)
    (by decide +kernel)
  obtain ⟨g, built, kept⟩ := Document.okWith found
  have reaches := (closureIsWhatNavigationReaches built [⟨"A"⟩]).2.2.1 ⟨"B"⟩
  obtain ⟨n, asked, way⟩ := reaches.mp (of_decide_eq_true kept)
  cases List.mem_singleton.mp asked
  exact ⟨d, g, read, built, way⟩

end EdmxPruning
