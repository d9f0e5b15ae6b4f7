import Mathlib.Logic.Function.Basic
import EdmxPruning.Proofs.Pruning.Searches

/-! The index of a document. Its definitions are filed one after the other under their short names: all
elements of an entity type are kept together under the first of them, of an association only the first is
kept. Nothing is lost on the way and nothing is filed twice. -/
namespace EdmxPruning

/- Where a name is taken, what is filed under it is joined to what is there. -/
def joined {α : Type} (join : α → α → α) (there : Option α) (value : α) : α :=
  match there with
  | none => value
  | some first => join first value

def filed {α : Type} (join : α → α → α) (index : ShortName → Option α) :
    List (ShortName × α) → Logged (ShortName → Option α)
  | [] => ⟨[], index⟩
  | (name, value) :: rest =>
      let later := filed join (Function.update index name (some (joined join (index name) value))) rest
      ⟨(if (index name).isSome then [.duplicateDefinition name] else []) ++ later.events, later.value⟩

section Filing

variable {α : Type} {join : α → α → α}

/- What an index has under a name depends on the definitions of that name only. -/
theorem filedValue (index : ShortName → Option α) (definitions : List (ShortName × α))
    (name : ShortName) : (filed join index definitions).value name =
      ((definitions.filter (·.1 = name)).map Prod.snd).foldl
        (fun there value => some (joined join there value)) (index name) := by
  induction definitions generalizing index with
  | nil => rfl
  | cons definition rest ih =>
    obtain ⟨own, value⟩ := definition
    refine (ih _).trans ?_
    by_cases same : own = name
    · subst same
      simp
    · rw [Function.update_of_ne (Ne.symm same), List.filter_cons_of_neg (by simpa using same)]

theorem filedEvents (index : ShortName → Option α) (definitions : List (ShortName × α)) (seen : NameSet)
    (taken : ∀ name, (index name).isSome = true ↔ name ∈ seen) :
    (filed join index definitions).events =
      (NavigationGraph.repeated seen (definitions.map Prod.fst)).map .duplicateDefinition := by
  induction definitions generalizing index seen with
  | nil => rfl
  | cons definition rest ih =>
    obtain ⟨own, value⟩ := definition
    have inserted (name : ShortName) :
        (Function.update index own (some (joined join (index own) value)) name).isSome = true ↔
          name ∈ seen.insert own := by
      rw [NameSet.memInsert, ← taken]
      by_cases same : name = own <;> simp [same]
    rw [filed, List.map_cons, NavigationGraph.repeated]
    by_cases known : own ∈ seen
    · have unchanged (name : ShortName) : name ∈ seen.insert own ↔ name ∈ seen := by
        rw [NameSet.memInsert]
        exact or_iff_right_of_imp fun same => same ▸ known
      rw [if_pos known, if_pos ((taken own).mpr known), List.map_cons,
        ih _ seen fun name => (inserted name).trans (unchanged name)]
      rfl
    · rw [if_neg known, if_neg (mt (taken own).mp known), ih _ _ inserted]
      rfl

end Filing

structure TypeEntry where
  nodes : List NodeId
  relationships : List ShortName
  deriving DecidableEq, Repr

/- Later elements are kept with the first one, later navigation is not. -/
def TypeEntry.join (first later : TypeEntry) : TypeEntry :=
  { first with nodes := first.nodes ++ later.nodes }

def EntityType.entry (t : EntityType) : TypeEntry := ⟨[t.node], t.relationships⟩

namespace NavigationGraph

def typeIndex (g : NavigationGraph) : Logged (ShortName → Option TypeEntry) :=
  filed TypeEntry.join (fun _ => none) (g.entityTypes.map fun t => (t.name, t.entry))

def associationIndex (g : NavigationGraph) : Logged (ShortName → Option (List ShortName)) :=
  filed (fun first _ => first) (fun _ => none) (g.associations.map fun a => (a.name, a.ends))

theorem joinedTypes (later : List EntityType) (entry : TypeEntry) :
    (later.map EntityType.entry).foldl (fun there value => some (joined .join there value))
      (some entry) = some { entry with nodes := entry.nodes ++ later.map EntityType.node } := by
  induction later generalizing entry with
  | nil => simp
  | cons t rest ih =>
    refine (ih (entry.join t.entry)).trans ?_
    simp [TypeEntry.join, EntityType.entry]

theorem joinedAssociations (later : List (List ShortName)) (ends : List ShortName) :
    later.foldl (fun there value => some (joined (fun first _ => first) there value)) (some ends) =
      some ends := by
  induction later with
  | nil => rfl
  | cons _ rest ih => exact ih

theorem filedNamed {β α : Type} (key : β → ShortName) (value : β → α) (definitions : List β)
    (name : ShortName) :
    ((definitions.map fun b => (key b, value b)).filter (·.1 = name)).map Prod.snd =
      (definitions.filter (key · = name)).map value := by
  rw [List.filter_map, List.map_map]
  rfl

theorem keyMissing {β : Type} {key : β → ShortName} {definitions : List β} {name : ShortName} :
    definitions.find? (key · = name) = none ↔ name ∉ NameSet.ofList (definitions.map key) := by
  rw [List.find?_eq_none, NameSet.memOfList, List.mem_map]
  simp only [decide_eq_true_eq, not_exists, not_and]

theorem entityTypeMissing {g : NavigationGraph} {name : ShortName} :
    g.entityType? name = none ↔ name ∉ g.entityNames := keyMissing

theorem associationMissing {g : NavigationGraph} {name : ShortName} :
    g.association? name = none ↔ name ∉ g.associationNames := keyMissing

theorem typeIndexed (g : NavigationGraph) (name : ShortName) : g.typeIndex.value name =
    (g.entityType? name).map fun first => ⟨g.nodes name, first.relationships⟩ := by
  unfold typeIndex entityType? nodes
  rw [filedValue, filedNamed, ← List.head?_filter]
  cases g.entityTypes.filter (·.name = name) with
  | nil => rfl
  | cons first later => exact joinedTypes later first.entry

theorem associationIndexed (g : NavigationGraph) (name : ShortName) :
    g.associationIndex.value name = (g.association? name).map Association.ends := by
  unfold associationIndex association?
  rw [filedValue, filedNamed, ← List.head?_filter]
  cases g.associations.filter (·.name = name) with
  | nil => rfl
  | cons first later => exact joinedAssociations _ first.ends

theorem indexEvents (g : NavigationGraph) : g.events = g.typeIndex.events ++ g.associationIndex.events ++
    [.indexBuilt g.entityNames.size g.associationNames.size] := by
  have empty (name : ShortName) {α : Type} : (none : Option α).isSome = true ↔ name ∈ (∅ : NameSet) :=
    ⟨Bool.noConfusion, fun inside => absurd inside List.not_mem_nil⟩
  unfold events typeIndex associationIndex
  rw [filedEvents _ _ ∅ fun name => empty name, filedEvents _ _ ∅ fun name => empty name,
    List.map_map, List.map_map]
  rfl

end NavigationGraph

namespace Document

def definitions (d : Document) (kind : ElementKind) (name : ShortName) : List NodeId :=
  (d.find kind none).filter (d.reference? · "Name" = some name)

theorem Reached.findAscending {d : Document} (reached : d.Reached) (kind : ElementKind)
    (scope : Option NodeId) : (d.find kind scope).Pairwise fun a b : Nat => a < b := by
  rcases (d.findFirst kind scope).listed with none | found
  · rw [none]
    exact .nil
  · obtain ⟨placement, _, same⟩ := List.mem_map.mp found
    rw [← same]
    exact (reached.candidatesAscending scope).filter _

theorem navigationFails {d : Document} {e : SectionError} :
    d.navigation = .error e ↔ d.sections = .error e := by
  unfold navigation
  cases located : d.sections with
  | error other => constructor <;> (intro failed; cases failed; rfl)
  | ok sections => constructor <;> (intro failed; cases failed)

theorem sectionsMissing {d : Document} {e : SectionError} : d.sections = .error e ↔
    (d.find .entityContainer none = [] ∧ e = .containerNotFound) ∨
    (d.find .entityContainer none ≠ [] ∧ d.find .schema none = [] ∧ e = .schemaNotFound) := by
  unfold sections
  cases d.find .entityContainer none with
  | nil =>
    refine ⟨fun failed => ?_, fun missing => ?_⟩
    · cases failed
      exact .inl ⟨rfl, rfl⟩
    · obtain ⟨_, rfl⟩ | ⟨filled, _⟩ := missing
      · rfl
      · exact absurd rfl filled
  | cons container rest =>
    cases d.find .schema none with
    | nil =>
      refine ⟨fun failed => ?_, fun missing => ?_⟩
      · cases failed
        exact .inr ⟨List.cons_ne_nil _ _, rfl, rfl⟩
      · obtain ⟨none, _⟩ | ⟨_, _, rfl⟩ := missing
        · cases none
        · rfl
    | cons schema more =>
      refine ⟨fun failed => ?_, fun missing => ?_⟩
      · cases failed
      · obtain ⟨none, _⟩ | ⟨_, none, _⟩ := missing <;> cases none

section Built

variable {d : Document} {g : NavigationGraph} (built : d.navigation = .ok g)
include built

theorem nodesDefined (name : ShortName) : g.nodes name = d.definitions .entityType name := by
  unfold NavigationGraph.nodes definitions
  rw [(navigationParts built).2.1]
  induction d.find .entityType none with
  | nil => rfl
  | cons id rest ih =>
    cases indexed : d.entityType? id with
    | none =>
      have nameless : d.reference? id "Name" = none := by
        cases named : d.reference? id "Name" with
        | none => rfl
        | some own => simp [entityType?, named] at indexed
      rw [List.filterMap_cons_none indexed, ih, List.filter_cons_of_neg (by simp [nameless])]
    | some t =>
      obtain ⟨node, named, _⟩ := entityTypeParts.mp indexed
      rw [List.filterMap_cons_some indexed]
      by_cases same : t.name = name
      · rw [List.filter_cons_of_pos (by simpa using same), List.map_cons, ih, node,
          List.filter_cons_of_pos (by simp [named, same])]
      · rw [List.filter_cons_of_neg (by simpa using same), ih,
          List.filter_cons_of_neg (by simpa [named] using same)]

theorem typeNames :
    g.entityTypes.map EntityType.name = (d.find .entityType none).filterMap (d.reference? · "Name") := by
  rw [(navigationParts built).2.1, List.map_filterMap]
  congr 1
  funext id
  cases named : d.reference? id "Name" <;> simp [entityType?, named]

theorem associationNames : g.associations.map Association.name =
    (d.find .association none).filterMap (d.reference? · "Name") := by
  rw [(navigationParts built).2.2, List.map_filterMap]
  congr 1
  funext id
  cases named : d.reference? id "Name" <;> simp [association?, named]

theorem typeKeys {name : ShortName} : name ∈ g.entityNames ↔
    ∃ id ∈ d.find .entityType none, d.reference? id "Name" = some name := by
  unfold NavigationGraph.entityNames
  rw [NameSet.memOfList, typeNames built, List.mem_filterMap]

theorem associationKeys {name : ShortName} : name ∈ g.associationNames ↔
    ∃ id ∈ d.find .association none, d.reference? id "Name" = some name := by
  unfold NavigationGraph.associationNames
  rw [NameSet.memOfList, associationNames built, List.mem_filterMap]

end Built

section Definitions

variable {d : Document} {kind : ElementKind} {name : ShortName} {id first : NodeId} {later : List NodeId}

theorem memDefinitions :
    id ∈ d.definitions kind name ↔ id ∈ d.find kind none ∧ d.reference? id "Name" = some name := by
  unfold definitions
  rw [List.mem_filter, decide_eq_true_eq]

theorem definitionsStart (named : ∃ id ∈ d.find kind none, d.reference? id "Name" = some name) :
    ∃ first later, d.definitions kind name = first :: later := by
  obtain ⟨id, found, own⟩ := named
  exact List.exists_cons_of_ne_nil (List.ne_nil_of_mem (memDefinitions.mpr ⟨found, own⟩))

theorem firstDefinition (split : d.definitions kind name = first :: later) :
    d.definition? kind name = some first := by
  unfold definition?
  rw [← List.head?_filter]
  exact congrArg List.head? split

end Definitions

/- What an index says about the document it was built from. -/
structure Indexed (d : Document) (g : NavigationGraph) : Prop where
  types : ∀ name, g.typeIndex.value name =
    if name ∈ g.entityNames then some ⟨g.nodes name, g.relationships name⟩ else none
  associations : ∀ name, g.associationIndex.value name =
    if name ∈ g.associationNames then some (g.ends name) else none
  events : g.events = g.typeIndex.events ++ g.associationIndex.events ++
    [.indexBuilt g.entityNames.size g.associationNames.size]
  typeKeys : ∀ name, name ∈ g.entityNames ↔
    ∃ id ∈ d.find .entityType none, d.reference? id "Name" = some name
  once : ∀ id ∈ d.find .entityType none, ∀ own, d.reference? id "Name" = some own →
    ∀ name, (g.nodes name).count id = if name = own then 1 else 0
  nodes : ∀ name, ∀ id ∈ g.nodes name,
    id ∈ d.find .entityType none ∧ d.reference? id "Name" = some name
  order : ∀ name, (g.nodes name).Pairwise fun a b : Nat => a < b
  relationships : ∀ name ∈ g.entityNames, ∃ first later, g.nodes name = first :: later ∧
    g.relationships name =
      (d.find .navigationProperty (some first)).filterMap (d.reference? · "Relationship")
  associationKeys : ∀ name, name ∈ g.associationNames ↔
    ∃ id ∈ d.find .association none, d.reference? id "Name" = some name
  ends : ∀ name ∈ g.associationNames, ∃ first later,
    d.definitions .association name = first :: later ∧
    g.ends name = (d.find .associationEnd (some first)).filterMap (d.reference? · "Type")
  found : ∀ kind scope, (d.find kind scope).Pairwise fun a b : Nat => a < b

section Entries

variable {d : Document} {g : NavigationGraph} (built : d.navigation = .ok g)
include built

theorem typeEntry {name : ShortName} (key : name ∈ g.entityNames) :
    ∃ first later t, g.nodes name = first :: later ∧ g.entityType? name = some t ∧
      t.relationships =
        (d.find .navigationProperty (some first)).filterMap (d.reference? · "Relationship") := by
  obtain ⟨first, later, split⟩ := definitionsStart ((typeKeys built).mp key)
  have own := (memDefinitions.mp (split ▸ List.mem_cons_self)).2
  refine ⟨first, later, ⟨name, first, _⟩, (nodesDefined built name).trans split, ?_, rfl⟩
  rw [entityTypeOfGraph built, firstDefinition split]
  exact entityTypeParts.mpr ⟨rfl, own, rfl⟩

theorem associationEntry {name : ShortName} (key : name ∈ g.associationNames) :
    ∃ first later a, d.definitions .association name = first :: later ∧
      g.association? name = some a ∧
      a.ends = (d.find .associationEnd (some first)).filterMap (d.reference? · "Type") := by
  obtain ⟨first, later, split⟩ := definitionsStart ((associationKeys built).mp key)
  have own := (memDefinitions.mp (split ▸ List.mem_cons_self)).2
  refine ⟨first, later, ⟨name, first, _⟩, split, ?_, rfl⟩
  rw [associationOfGraph built, firstDefinition split]
  simp [association?, own]

theorem typesIndexed (name : ShortName) : g.typeIndex.value name =
    if name ∈ g.entityNames then some ⟨g.nodes name, g.relationships name⟩ else none := by
  rw [NavigationGraph.typeIndexed]
  unfold NavigationGraph.relationships
  split
  case isTrue key =>
    obtain ⟨_, _, t, _, known, _⟩ := typeEntry built key
    rw [known]
    rfl
  case isFalse missing =>
    rw [NavigationGraph.entityTypeMissing.mpr missing]
    rfl

theorem associationsIndexed (name : ShortName) : g.associationIndex.value name =
    if name ∈ g.associationNames then some (g.ends name) else none := by
  rw [NavigationGraph.associationIndexed]
  unfold NavigationGraph.ends
  split
  case isTrue key =>
    obtain ⟨_, _, a, _, known, _⟩ := associationEntry built key
    rw [known]
    rfl
  case isFalse missing =>
    rw [NavigationGraph.associationMissing.mpr missing]
    rfl

theorem Reached.indexed (reached : d.Reached) : d.Indexed g where
  types := typesIndexed built
  associations := associationsIndexed built
  events := g.indexEvents
  typeKeys _ := typeKeys built
  once id found own named name := by
    have distinct : (d.find .entityType none).Nodup :=
      (reached.findAscending .entityType none).imp Nat.ne_of_lt
    rw [nodesDefined built, definitions]
    split
    case isTrue same =>
      rw [List.count_filter (by simp [named, same]), List.count_eq_one_of_mem distinct found]
    case isFalse different =>
      refine List.count_eq_zero.mpr fun inside => different ?_
      have other := (List.mem_filter.mp inside).2
      rw [named] at other
      simpa using (of_decide_eq_true other).symm
  nodes name id inside := by
    rw [nodesDefined built] at inside
    exact memDefinitions.mp inside
  order name := by
    rw [nodesDefined built]
    exact (reached.findAscending .entityType none).filter _
  relationships name key := by
    obtain ⟨first, later, t, split, known, navigated⟩ := typeEntry built key
    refine ⟨first, later, split, ?_⟩
    rw [NavigationGraph.relationships, known]
    exact navigated
  associationKeys _ := associationKeys built
  ends name key := by
    obtain ⟨first, later, a, split, known, typed⟩ := associationEntry built key
    refine ⟨first, later, split, ?_⟩
    rw [NavigationGraph.ends, known]
    exact typed
  found := reached.findAscending

end Entries
end Document

open Document in
theorem indexGroupsDefinitions {d : Document} (reached : d.Reached) :
    (∀ g, d.navigation = .ok g → d.Indexed g) ∧
    ((∃ e, d.navigation = .error e) ↔
      d.find .entityContainer none = [] ∨ d.find .schema none = []) ∧
    (d.navigation = .error .containerNotFound ↔ d.find .entityContainer none = []) := by
  refine ⟨fun g built => reached.indexed built, ?_, ?_⟩
  · simp only [navigationFails, sectionsMissing]
    constructor
    · rintro ⟨_, ⟨container, _⟩ | ⟨_, schema, _⟩⟩
      · exact .inl container
      · exact .inr schema
    · intro missing
      by_cases container : d.find .entityContainer none = []
      · exact ⟨_, .inl ⟨container, rfl⟩⟩
      · exact ⟨_, .inr ⟨container, missing.resolve_left container, rfl⟩⟩
  · rw [navigationFails, sectionsMissing]
    constructor
    · rintro (⟨container, _⟩ | ⟨_, _, other⟩)
      · exact container
      · cases other
    · exact fun container => .inl ⟨container, rfl⟩

def repeatedNames : String :=
  "<Schema><EntityContainer/><EntityType Name='a.T'><NavigationProperty Relationship='x.L'/>" ++
  "<NavigationProperty/><NavigationProperty Relationship='L'/><EntityType Name='U'/></EntityType>" ++
  "<EntityType/><Association Name='L'><End Type='b.U'/><End/><End Type='T'/></Association>" ++
  "<EntityType Name='b.T'><NavigationProperty Relationship='M'/></EntityType>" ++
  "<Association Name='y.L'><End Type='V'/></Association></Schema>"

theorem repeatedNamesIndexed : ∃ d g, Document.parse repeatedNames = .ok d ∧ d.navigation = .ok g ∧
    g.typeIndex.value ⟨"T"⟩ = some ⟨[2, 12], [⟨"L"⟩, ⟨"L"⟩]⟩ ∧
    g.typeIndex.value ⟨"U"⟩ = some ⟨[6], []⟩ ∧ g.typeIndex.value ⟨"V"⟩ = none ∧
    g.associationIndex.value ⟨"L"⟩ = some [⟨"U"⟩, ⟨"T"⟩] ∧ (g.nodes ⟨"T"⟩).count 12 = 1 := by
  have chars : repeatedNames.toList = _ := Document.charsAppend (Document.charsAppend
    (Document.charsAppend (Document.charsAppend (Document.charsOf rfl) (Document.charsOf rfl))
      (Document.charsOf rfl)) (Document.charsOf rfl)) (Document.charsOf rfl)
  obtain ⟨d, read, facts⟩ := Document.okWith (x := Document.parse repeatedNames)
    (p := fun d => d.navigation.toOption.any fun g : NavigationGraph => decide (
      (⟨"T"⟩ ∈ g.entityNames ∧ g.nodes ⟨"T"⟩ = [2, 12] ∧ g.relationships ⟨"T"⟩ = [⟨"L"⟩, ⟨"L"⟩]) ∧
      (⟨"U"⟩ ∈ g.entityNames ∧ g.nodes ⟨"U"⟩ = [6] ∧ g.relationships ⟨"U"⟩ = []) ∧
      ⟨"V"⟩ ∉ g.entityNames ∧ (⟨"L"⟩ ∈ g.associationNames ∧ g.ends ⟨"L"⟩ = [⟨"U"⟩, ⟨"T"⟩]) ∧
      12 ∈ d.find .entityType none ∧ d.reference? 12 "Name" = some ⟨"T"⟩))
    (by rw [Document.parseChars chars]; decide +kernel)
  obtain ⟨g, built, known⟩ := Document.okWith facts
  obtain ⟨⟨twice, twoNodes, follows⟩, ⟨inner, oneNode, quiet⟩, unknown, ⟨twoEnds, ends⟩, found, named⟩ :=
    of_decide_eq_true known
  have indexed := (indexGroupsDefinitions (.parsed read)).1 g built
  refine ⟨d, g, read, built, ?_, ?_, ?_, ?_, (indexed.once 12 found _ named _).trans (if_pos rfl)⟩
  · rw [indexed.types, if_pos twice, twoNodes, follows]
  · rw [indexed.types, if_pos inner, oneNode, quiet]
  · rw [indexed.types, if_neg unknown]
  · rw [indexed.associations, if_pos twoEnds, ends]

end EdmxPruning
