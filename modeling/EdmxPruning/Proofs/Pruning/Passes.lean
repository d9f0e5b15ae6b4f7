import EdmxPruning.Proofs.Metadata.Conventional
import EdmxPruning.Proofs.Navigation.Definitions
import EdmxPruning.Pruning.Run

/-! The five passes one after the other: what each of them chooses, that all it chooses is detached
when it is done, and that nothing else is cut but blank text. -/
namespace EdmxPruning

def ElementKind.removable : List ElementKind :=
  [.entitySet, .entityType, .association, .functionImport, .navigationProperty]

namespace Document

theorem removeNone {d : Document} {id : NodeId} (h : d.remove? id = none) : d.parent? id = none := by
  unfold remove? at h
  cases above : d.parent? id with
  | none => rfl
  | some parent =>
    rw [above] at h
    cases indent : d.indent? parent id <;> simp [indent] at h

theorem removeDetached {d : Document} {id : NodeId} (top : d.parent? id = none) :
    d.remove? id = none := by
  unfold remove?
  rw [top]

theorem removeAllLoses {d : Document} (arena : d.Arena) (ids : List NodeId) :
    d.Loses (d.removeAll ids).document (· ∈ ids) := by
  induction ids generalizing d with
  | nil => exact .refl d _
  | cons id rest ih =>
    have wider : ∀ x, x ∈ rest → x ∈ id :: rest := fun x => List.mem_cons_of_mem id
    unfold removeAll
    cases tried : d.remove? id with
    | none => exact (ih arena).weaken wider
    | some smaller =>
      have first := removeLoses arena tried
      exact (first.weaken fun x same => same ▸ List.mem_cons_self).trans
        ((ih (first.arena arena)).weaken wider)

theorem Reached.removeAll {d : Document} (reached : d.Reached) (ids : List NodeId) :
    (d.removeAll ids).document.Reached := by
  induction ids generalizing d with
  | nil => exact reached
  | cons id rest ih =>
    unfold Document.removeAll
    cases tried : d.remove? id with
    | none => exact ih reached
    | some smaller => exact ih (reached.removed tried)

theorem removeAllDetaches {d : Document} (arena : d.Arena) {ids : List NodeId} {id : NodeId}
    (h : id ∈ ids) : (d.removeAll ids).document.parent? id = none := by
  induction ids generalizing d with
  | nil => cases h
  | cons first rest ih =>
    unfold removeAll
    cases tried : d.remove? first with
    | none =>
      rcases List.mem_cons.mp h with same | later
      · subst same; exact (removeAllLoses arena rest).detachedAfter (removeNone tried)
      · exact ih arena later
    | some smaller =>
      have arena' := (removeLoses arena tried).arena arena
      rcases List.mem_cons.mp h with same | later
      · subst same
        exact (removeAllLoses arena' rest).detachedAfter (removeDetaches arena tried)
      · exact ih arena' later

theorem removeAllRemoved {d : Document} {ids : List NodeId} {id : NodeId}
    (h : id ∈ (d.removeAll ids).removed) : id ∈ ids := by
  induction ids generalizing d with
  | nil => cases h
  | cons first rest ih =>
    unfold removeAll at h
    cases tried : d.remove? first with
    | none => rw [tried] at h; exact List.mem_cons_of_mem _ (ih h)
    | some smaller =>
      rw [tried] at h
      rcases List.mem_cons.mp h with same | later
      · exact same ▸ List.mem_cons_self
      · exact List.mem_cons_of_mem _ (ih later)

end Document

namespace Pruning

section Choices

variable {d : Document} {g : NavigationGraph} {closure : Closure} {id : NodeId}

theorem containsIff {name : ShortName} : closure.contains name = true ↔ name ∈ closure.entities :=
  decide_eq_true_iff

theorem containsNot {name : ShortName} :
    (!closure.contains name) = true ↔ name ∉ closure.entities := by
  rw [Bool.not_eq_true', ← Bool.not_eq_true, containsIff]

theorem refersOutsideIff {name : String} : refersOutside d closure name id = true ↔
    ∃ reference, d.reference? id name = some reference ∧ reference ∉ closure.entities := by
  unfold refersOutside
  rw [Option.any_eq_true]
  exact exists_congr fun reference => and_congr_right fun _ => containsNot

theorem memEntitySets : id ∈ entitySets g closure d ↔
    id ∈ g.sections.inContainers d .entitySet ∧
      ∃ name, d.reference? id "EntityType" = some name ∧ name ∉ closure.entities := by
  unfold entitySets
  rw [List.mem_filter, refersOutsideIff]

theorem memNodes (built : d.navigation = .ok g) {name : ShortName} : id ∈ g.nodes name ↔
    id ∈ d.find .entityType none ∧ d.reference? id "Name" = some name := by
  unfold NavigationGraph.nodes
  rw [(Document.navigationParts built).2.1, List.mem_map]
  constructor
  · intro given
    obtain ⟨t, ht, same⟩ := given
    obtain ⟨inside, named⟩ := List.mem_filter.mp ht
    obtain ⟨node, found, indexed⟩ := List.mem_filterMap.mp inside
    obtain ⟨own, reference, _⟩ := Document.entityTypeParts.mp indexed
    have this : t.name = name := by simpa using named
    exact ⟨same ▸ own ▸ found, by rw [← same, own, reference, this]⟩
  · intro given
    obtain ⟨found, reference⟩ := given
    let t : EntityType := ⟨name, id,
      (d.find .navigationProperty (some id)).filterMap (d.reference? · "Relationship")⟩
    have indexed : d.entityType? id = some t := Document.entityTypeParts.mpr ⟨rfl, reference, rfl⟩
    exact ⟨t, List.mem_filter.mpr ⟨List.mem_filterMap.mpr ⟨id, found, indexed⟩, by simp [t]⟩, rfl⟩

theorem memEntityNames {name : ShortName} :
    name ∈ g.entityNames ↔ ∃ id, id ∈ g.nodes name := by
  unfold NavigationGraph.entityNames
  rw [NameSet.memOfList, List.mem_map]
  constructor
  · intro given
    obtain ⟨t, ht, named⟩ := given
    exact ⟨t.node, List.mem_map.mpr ⟨t, List.mem_filter.mpr ⟨ht, by simpa using named⟩, rfl⟩⟩
  · intro given
    obtain ⟨id, h⟩ := given
    obtain ⟨t, ht, _⟩ := List.mem_map.mp h
    exact ⟨t, (List.mem_filter.mp ht).1, by simpa using (List.mem_filter.mp ht).2⟩

theorem memEntityTypes (built : d.navigation = .ok g) : id ∈ entityTypes g closure ↔
    id ∈ d.find .entityType none ∧
      ∃ name, d.reference? id "Name" = some name ∧ name ∉ closure.entities := by
  unfold entityTypes
  rw [List.mem_flatMap]
  constructor
  · intro given
    obtain ⟨name, hn, h⟩ := given
    obtain ⟨found, reference⟩ := (memNodes built).mp h
    exact ⟨found, name, reference, containsNot.mp (List.mem_filter.mp hn).2⟩
  · intro given
    obtain ⟨found, name, reference, outside⟩ := given
    have node := (memNodes built).mpr ⟨found, reference⟩
    exact ⟨name, List.mem_filter.mpr ⟨memEntityNames.mpr ⟨id, node⟩,
      containsNot.mpr outside⟩, node⟩

theorem memAssociations : id ∈ associations g closure d ↔
    id ∈ g.sections.inSchemas d .association ∧ ∃ role ∈ d.find .associationEnd (some id),
      ∃ name, d.reference? role "Type" = some name ∧ name ∉ closure.entities := by
  unfold associations
  rw [List.mem_filter, List.any_eq_true]
  simp only [refersOutsideIff]

theorem memFunctionImports {gone : NameSet} : id ∈ functionImports closure gone g d ↔
    id ∈ g.sections.inContainers d .functionImport ∧
      ∃ name, (d.attribute? id "ReturnType").map ShortName.ofReturnType = some name ∧
        name ∈ gone ∧ name ∉ closure.entities := by
  unfold functionImports
  rw [List.mem_filter, Option.any_eq_true]
  refine and_congr_right fun _ => exists_congr fun name => and_congr_right fun _ => ?_
  rw [Bool.and_eq_true, containsNot, decide_eq_true_eq]

theorem memAssociationsLeft {m : Document} {name : ShortName} : name ∈ associationsLeft g m ↔
    ∃ association ∈ g.sections.inSchemas m .association,
      m.reference? association "Name" = some name := by
  unfold associationsLeft
  rw [NameSet.memOfList, List.mem_filterMap]

theorem memNavigationProperties (built : d.navigation = .ok g) {m : Document} :
    id ∈ navigationProperties g closure m ↔
      (∃ entityType ∈ d.find .entityType none,
        (∃ name, d.reference? entityType "Name" = some name ∧ name ∈ closure.entities) ∧
        id ∈ m.find .navigationProperty (some entityType)) ∧
      ∃ relationship, m.reference? id "Relationship" = some relationship ∧
        relationship ∉ associationsLeft g m := by
  unfold navigationProperties
  rw [List.mem_filter, Option.any_eq_true, List.mem_flatMap]
  refine and_congr ?_ (exists_congr fun _ => and_congr_right fun _ => decide_eq_true_iff)
  constructor
  · intro given
    obtain ⟨entityType, h, inside⟩ := given
    obtain ⟨name, hn, node⟩ := List.mem_flatMap.mp h
    obtain ⟨found, reference⟩ := (memNodes built).mp node
    exact ⟨entityType, found, ⟨name, reference, containsIff.mp (List.mem_filter.mp hn).2⟩, inside⟩
  · intro given
    obtain ⟨entityType, found, ⟨name, reference, kept⟩, inside⟩ := given
    have node := (memNodes built).mpr ⟨found, reference⟩
    exact ⟨entityType, List.mem_flatMap.mpr ⟨name, List.mem_filter.mpr
      ⟨memEntityNames.mpr ⟨entityType, node⟩, containsIff.mpr kept⟩, node⟩, inside⟩

end Choices

/- The removals of the passes, each from the document that the one before has left. -/
section Stages

variable (g : NavigationGraph) (closure : Closure) (d : Document)

def setsRemoval : Removal := d.removeAll (entitySets g closure d)

def gone : NameSet :=
  .ofList ((setsRemoval g closure d).removed.filterMap (d.reference? · "EntityType"))

def typesRemoval : Removal :=
  (setsRemoval g closure d).document.removeAll (entityTypes g closure)

def associationsRemoval : Removal :=
  let left := (typesRemoval g closure d).document
  left.removeAll (associations g closure left)

def importsRemoval : Removal :=
  let left := (associationsRemoval g closure d).document
  left.removeAll (functionImports closure (gone g closure d) g left)

def propertiesRemoval : Removal :=
  let left := (importsRemoval g closure d).document
  left.removeAll (navigationProperties g closure left)

inductive Chosen (id : NodeId) : Prop where
  | entitySet (chosen : id ∈ entitySets g closure d)
  | entityType (chosen : id ∈ entityTypes g closure)
  | association (chosen : id ∈ associations g closure (typesRemoval g closure d).document)
  | functionImport (chosen : id ∈ functionImports closure (gone g closure d) g
      (associationsRemoval g closure d).document)
  | navigationProperty
      (chosen : id ∈ navigationProperties g closure (importsRemoval g closure d).document)

def choice : ElementKind → List NodeId
  | .entitySet => entitySets g closure d
  | .entityType => entityTypes g closure
  | .association => associations g closure (typesRemoval g closure d).document
  | .functionImport =>
      functionImports closure (gone g closure d) g (associationsRemoval g closure d).document
  | .navigationProperty => navigationProperties g closure (importsRemoval g closure d).document
  | .dataServices | .schema | .entityContainer | .associationEnd => []

def stage : ElementKind → Document
  | .entityType => (setsRemoval g closure d).document
  | .association => (typesRemoval g closure d).document
  | .functionImport => (associationsRemoval g closure d).document
  | .navigationProperty => (importsRemoval g closure d).document
  | .entitySet | .dataServices | .schema | .entityContainer | .associationEnd => d

def removedBy (kind : ElementKind) : List NodeId :=
  ((stage g closure d kind).removeAll (choice g closure d kind)).removed

theorem runStages : run g closure d =
    { document := (propertiesRemoval g closure d).document
      passes := ElementKind.removable.map fun kind => ⟨kind, removedBy g closure d kind⟩
      gone := gone g closure d } := rfl

end Stages

theorem chosenIff {g : NavigationGraph} {closure : Closure} {d : Document} {id : NodeId} :
    Chosen g closure d id ↔ ∃ kind ∈ ElementKind.removable, id ∈ choice g closure d kind := by
  constructor
  · intro chosen
    cases chosen with
    | entitySet h => exact ⟨.entitySet, by decide, h⟩
    | entityType h => exact ⟨.entityType, by decide, h⟩
    | association h => exact ⟨.association, by decide, h⟩
    | functionImport h => exact ⟨.functionImport, by decide, h⟩
    | navigationProperty h => exact ⟨.navigationProperty, by decide, h⟩
  · intro given
    obtain ⟨kind, _, h⟩ := given
    cases kind with
    | entitySet => exact .entitySet h
    | entityType => exact .entityType h
    | association => exact .association h
    | functionImport => exact .functionImport h
    | navigationProperty => exact .navigationProperty h
    | dataServices | schema | entityContainer | associationEnd => cases h

/- The documents between the passes, from the one before the first to the one after the last. -/
structure StagesLose (g : NavigationGraph) (closure : Closure) (d : Document) : Prop where
  sets : d.Loses (setsRemoval g closure d).document (Chosen g closure d)
  types : (setsRemoval g closure d).document.Loses (typesRemoval g closure d).document
    (Chosen g closure d)
  associations : (typesRemoval g closure d).document.Loses
    (associationsRemoval g closure d).document (Chosen g closure d)
  imports : (associationsRemoval g closure d).document.Loses
    (importsRemoval g closure d).document (Chosen g closure d)
  properties : (importsRemoval g closure d).document.Loses (run g closure d).document
    (Chosen g closure d)

theorem stagesLose {d : Document} (arena : d.Arena) (g : NavigationGraph) (closure : Closure) :
    StagesLose g closure d := by
  have sets : d.Loses (setsRemoval g closure d).document (Chosen g closure d) :=
    (Document.removeAllLoses arena _).weaken fun _ => .entitySet
  have types : (setsRemoval g closure d).document.Loses (typesRemoval g closure d).document
      (Chosen g closure d) :=
    (Document.removeAllLoses (sets.arena arena) _).weaken fun _ => .entityType
  have toTypes := sets.trans types
  have associations : (typesRemoval g closure d).document.Loses
      (associationsRemoval g closure d).document (Chosen g closure d) :=
    (Document.removeAllLoses (toTypes.arena arena) _).weaken fun _ => .association
  have toAssociations := toTypes.trans associations
  have imports : (associationsRemoval g closure d).document.Loses
      (importsRemoval g closure d).document (Chosen g closure d) :=
    (Document.removeAllLoses (toAssociations.arena arena) _).weaken fun _ => .functionImport
  have toImports := toAssociations.trans imports
  have properties : (importsRemoval g closure d).document.Loses (run g closure d).document
      (Chosen g closure d) :=
    (Document.removeAllLoses (toImports.arena arena) _).weaken fun _ => .navigationProperty
  exact ⟨sets, types, associations, imports, properties⟩

namespace StagesLose

variable {g : NavigationGraph} {closure : Closure} {d : Document} (lose : StagesLose g closure d)
include lose

theorem toTypes : d.Loses (typesRemoval g closure d).document (Chosen g closure d) :=
  lose.sets.trans lose.types

theorem toAssociations : d.Loses (associationsRemoval g closure d).document (Chosen g closure d) :=
  lose.toTypes.trans lose.associations

theorem toImports : d.Loses (importsRemoval g closure d).document (Chosen g closure d) :=
  lose.toAssociations.trans lose.imports

theorem toEnd : d.Loses (run g closure d).document (Chosen g closure d) :=
  lose.toImports.trans lose.properties

theorem fromAssociations : (associationsRemoval g closure d).document.Loses
    (run g closure d).document (Chosen g closure d) := lose.imports.trans lose.properties

theorem fromTypes : (typesRemoval g closure d).document.Loses (run g closure d).document
    (Chosen g closure d) := lose.associations.trans lose.fromAssociations

theorem fromSets : (setsRemoval g closure d).document.Loses (run g closure d).document
    (Chosen g closure d) := lose.types.trans lose.fromTypes

theorem chosenDetached (arena : d.Arena) {id : NodeId} (chosen : Chosen g closure d id) :
    (run g closure d).document.parent? id = none := by
  cases chosen with
  | entitySet h => exact lose.fromSets.detachedAfter (Document.removeAllDetaches arena h)
  | entityType h =>
    exact lose.fromTypes.detachedAfter (Document.removeAllDetaches (lose.sets.arena arena) h)
  | association h =>
    exact lose.fromAssociations.detachedAfter
      (Document.removeAllDetaches (lose.toTypes.arena arena) h)
  | functionImport h =>
    exact lose.properties.detachedAfter
      (Document.removeAllDetaches (lose.toAssociations.arena arena) h)
  | navigationProperty h =>
    exact Document.removeAllDetaches (lose.toImports.arena arena) h

end StagesLose

/- Types that lost their entity set are none that are kept. -/
theorem memGone {g : NavigationGraph} {closure : Closure} {d : Document} {name : ShortName}
    (h : name ∈ gone g closure d) : name ∉ closure.entities := by
  obtain ⟨id, removed, reference⟩ := List.mem_filterMap.mp (NameSet.memOfList.mp h)
  obtain ⟨_, other, named, outside⟩ := memEntitySets.mp (Document.removeAllRemoved removed)
  cases reference.symm.trans named
  exact outside

theorem addGone (r : Report) (n : Nat) (kind : ElementKind) :
    (r.add n kind).removedEntities = r.removedEntities := by
  cases kind <;> rfl

theorem reportGone (o : Outcome) : o.report.removedEntities = o.gone := by
  have folded (passes : List Pass) (r : Report) :
      (passes.foldl (fun report pass => report.add pass.removed.length pass.kind) r).removedEntities =
        r.removedEntities := by
    induction passes generalizing r with
    | nil => rfl
    | cons pass rest ih => rw [List.foldl_cons, ih, addGone]
  exact folded o.passes _

end Pruning

theorem Document.pruneParts {d : Document} {requested : List ShortName} {pruned : Logged Pruned}
    (ok : d.prune requested = .ok pruned) : ∃ g, d.navigation = .ok g ∧
      pruned.value.closure = (g.closure requested).value ∧
      pruned.value.document = (Pruning.run g pruned.value.closure d).document ∧
      pruned.value.report = (Pruning.run g pruned.value.closure d).report := by
  unfold prune at ok
  cases built : d.navigation with
  | error e => rw [built] at ok; cases ok
  | ok g => rw [built] at ok; cases ok; exact ⟨g, rfl, rfl, rfl, rfl⟩

theorem Document.pruneOf {d : Document} {g : NavigationGraph} (built : d.navigation = .ok g)
    (requested : List ShortName) : ∃ pruned, d.prune requested = .ok pruned := by
  unfold prune
  rw [built]
  exact ⟨_, rfl⟩

theorem Document.pruneError {d : Document} {e : SectionError} (failed : d.navigation = .error e)
    (requested : List ShortName) : d.prune requested = .error e := by
  unfold prune
  rw [failed]
  rfl

end EdmxPruning
