import EdmxPruning.Navigation.Graph

/-! What the look-ups of a navigation graph mean in the document it was built from: a short name
stands for the first element of its kind that carries it. -/
namespace EdmxPruning
namespace Document

def definition? (d : Document) (kind : ElementKind) (name : ShortName) : Option NodeId :=
  (d.find kind none).find? (d.reference? · "Name" = some name)

/- One step of navigation: over a navigation property of the first definition of `n` and the first
association it names to the type of one of the ends. -/
def Leads (d : Document) (n m : ShortName) : Prop :=
  m ≠ n ∧ ∃ entityType property relationship association role,
    d.definition? .entityType n = some entityType ∧
    property ∈ d.find .navigationProperty (some entityType) ∧
    d.reference? property "Relationship" = some relationship ∧
    d.definition? .association relationship = some association ∧
    role ∈ d.find .associationEnd (some association) ∧
    d.reference? role "Type" = some m

theorem navigationParts {d : Document} {g : NavigationGraph} (built : d.navigation = .ok g) :
    d.sections = .ok g.sections ∧
    g.entityTypes = (d.find .entityType none).filterMap d.entityType? ∧
    g.associations = (d.find .association none).filterMap d.association? := by
  unfold navigation at built
  cases found : d.sections with
  | error e => rw [found] at built; cases built
  | ok sections => rw [found] at built; cases built; exact ⟨rfl, rfl, rfl⟩

theorem navigationOf {d : Document} {sections : Sections} (located : d.sections = .ok sections) :
    ∃ g, d.navigation = .ok g := by
  unfold navigation
  rw [located]
  exact ⟨_, rfl⟩

theorem entityTypeParts {d : Document} {id : NodeId} {t : EntityType} :
    d.entityType? id = some t ↔ t.node = id ∧ d.reference? id "Name" = some t.name ∧
      t.relationships =
        (d.find .navigationProperty (some id)).filterMap (d.reference? · "Relationship") := by
  unfold entityType?
  cases d.reference? id "Name" with
  | none => simp
  | some name =>
    obtain ⟨ownName, node, relationships⟩ := t
    simp only [bind, Option.bind, Option.some.injEq, EntityType.mk.injEq]
    constructor <;>
      · intro given
        obtain ⟨rfl, rfl, rfl⟩ := given
        exact ⟨rfl, rfl, rfl⟩

theorem findIndexed {α : Type} {index : NodeId → Option α} {key : α → ShortName}
    {named? : NodeId → Option ShortName} (keyed : ∀ id, (index id).map key = named? id)
    (name : ShortName) (ids : List NodeId) :
    (ids.filterMap index).find? (key · = name) =
      (ids.find? (named? · = some name)).bind index := by
  induction ids with
  | nil => rfl
  | cons id rest ih =>
    have own := keyed id
    cases indexed : index id with
    | none =>
      rw [indexed] at own
      rw [List.filterMap_cons_none indexed, ih, List.find?_cons_of_neg (by simp [← own])]
    | some a =>
      rw [indexed] at own
      rw [List.filterMap_cons_some indexed]
      by_cases same : key a = name
      · rw [List.find?_cons_of_pos (by simpa using same),
          List.find?_cons_of_pos (by simp [← own, same])]
        exact indexed.symm
      · rw [List.find?_cons_of_neg (by simpa using same), ih,
          List.find?_cons_of_neg (by simpa [← own] using same)]

theorem entityTypeOfGraph {d : Document} {g : NavigationGraph} (built : d.navigation = .ok g)
    (name : ShortName) : g.entityType? name = (d.definition? .entityType name).bind d.entityType? := by
  unfold NavigationGraph.entityType?
  rw [(navigationParts built).2.1]
  refine findIndexed (fun id => ?_) name _
  cases named : d.reference? id "Name" <;> simp [entityType?, named]

theorem associationOfGraph {d : Document} {g : NavigationGraph} (built : d.navigation = .ok g)
    (name : ShortName) :
    g.association? name = (d.definition? .association name).bind d.association? := by
  unfold NavigationGraph.association?
  rw [(navigationParts built).2.2]
  refine findIndexed (fun id => ?_) name _
  cases named : d.reference? id "Name" <;> simp [association?, named]

theorem definitionNamed {d : Document} {kind : ElementKind} {name : ShortName} {id : NodeId}
    (first : d.definition? kind name = some id) :
    id ∈ d.find kind none ∧ d.reference? id "Name" = some name :=
  ⟨List.mem_of_find?_eq_some first, by simpa using List.find?_some first⟩

theorem memRelationships {d : Document} {g : NavigationGraph} (built : d.navigation = .ok g)
    {name relationship : ShortName} :
    relationship ∈ g.relationships name ↔ ∃ entityType property,
      d.definition? .entityType name = some entityType ∧
      property ∈ d.find .navigationProperty (some entityType) ∧
      d.reference? property "Relationship" = some relationship := by
  unfold NavigationGraph.relationships
  rw [entityTypeOfGraph built]
  cases first : d.definition? .entityType name with
  | none => simp
  | some id =>
    have named := (definitionNamed first).2
    simp [entityType?, named, List.mem_filterMap]

theorem memEnds {d : Document} {g : NavigationGraph} (built : d.navigation = .ok g)
    {relationship m : ShortName} :
    m ∈ g.ends relationship ↔ ∃ association role,
      d.definition? .association relationship = some association ∧
      role ∈ d.find .associationEnd (some association) ∧ d.reference? role "Type" = some m := by
  unfold NavigationGraph.ends
  rw [associationOfGraph built]
  cases first : d.definition? .association relationship with
  | none => simp
  | some id =>
    have named := (definitionNamed first).2
    simp [association?, named, List.mem_filterMap]

theorem memNeighbors {g : NavigationGraph} {n m : ShortName} :
    m ∈ g.neighbors n ↔ m ≠ n ∧ ∃ relationship ∈ g.relationships n, m ∈ g.ends relationship := by
  unfold NavigationGraph.neighbors
  rw [NameSet.memOfList, List.mem_filter, List.mem_flatMap, decide_eq_true_eq]
  exact and_comm

theorem neighborIffLeads {d : Document} {g : NavigationGraph} (built : d.navigation = .ok g)
    {n m : ShortName} : m ∈ g.neighbors n ↔ d.Leads n m := by
  rw [memNeighbors]
  refine and_congr_right fun _ => ?_
  constructor
  · intro given
    obtain ⟨relationship, hr, hm⟩ := given
    obtain ⟨t, property, ht, hp, named⟩ := (memRelationships built).mp hr
    obtain ⟨a, role, ha, he, typed⟩ := (memEnds built).mp hm
    exact ⟨t, property, relationship, a, role, ht, hp, named, ha, he, typed⟩
  · intro given
    obtain ⟨t, property, relationship, a, role, ht, hp, named, ha, he, typed⟩ := given
    exact ⟨relationship, (memRelationships built).mpr ⟨t, property, ht, hp, named⟩,
      (memEnds built).mpr ⟨a, role, ha, he, typed⟩⟩

end Document
end EdmxPruning
