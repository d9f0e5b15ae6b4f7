import EdmxPruning.Proofs.Navigation.Reachability
import EdmxPruning.Proofs.Pruning.Tidiness

/-! What persists in a tidy document. At every stage of a run the sections are found where they were,
a definition is whole while it is there, and the passes see of each kind what is left of it. So types
that are kept, and associations whose ends are kept, stay with all that navigation reads from them. -/
namespace EdmxPruning

namespace Pruning

variable {d : Document} {g : NavigationGraph} {closure : Closure} (arena : d.Arena) (tidy : d.Tidy)
  (built : d.navigation = .ok g)

section Stage

variable {m : Document} (h : d.Loses m (Chosen g closure d))
include arena tidy built h

theorem unchosenStays {kind : ElementKind} (upper : kind ∈ ElementKind.upper) {id : NodeId}
    (attached : id ∈ d.elements) (seen : d.recognizes kind id = true)
    (spared : ¬ Chosen g closure d id) : id ∈ m.elements := by
  apply Document.clearStays arena h attached _ (Document.uncutAfter arena h attached spared)
  exact fun above higher lost =>
    tidy.clear kind upper id attached seen above higher (chosenMayGo arena built above lost)

theorem sectionStays {kind : ElementKind} (upper : kind ∈ ElementKind.upper)
    (safe : kind ∉ ElementKind.removable) {id : NodeId} (attached : id ∈ d.elements)
    (seen : d.recognizes kind id = true) : id ∈ m.elements := by
  apply unchosenStays arena tidy built h upper attached seen
  intro chosen
  have removable := chosenRemovable arena built id chosen
  exact safe (Document.removableKind (Document.recognizedKind seen) removable)

theorem sectionsFound {kind : ElementKind} (upper : kind ∈ ElementKind.upper)
    (safe : kind ∉ ElementKind.removable) : m.find kind none = d.find kind none :=
  h.findSame arena Document.noScope fun _ attached seen =>
    sectionStays arena tidy built h upper safe attached seen

theorem sectionsSame : m.sections = .ok g.sections := by
  rw [← (Document.navigationParts built).1]
  unfold Document.sections
  rw [sectionsFound arena tidy built h (by decide) (by decide),
    sectionsFound arena tidy built h (by decide) (by decide)]

theorem memSetsFound {id : NodeId} : id ∈ g.sections.inContainers m .entitySet ↔
    id ∈ g.sections.inContainers d .entitySet ∧ id ∈ m.elements := by
  unfold Sections.inContainers
  rw [(Document.sectionsParts (Document.navigationParts built).1).1, List.mem_flatMap,
    List.mem_flatMap]
  have narrowed {container : NodeId} (found : container ∈ d.find .entityContainer none) :
      id ∈ m.find .entitySet (some container) ↔
        id ∈ d.find .entitySet (some container) ∧ id ∈ m.elements := by
    obtain ⟨attached, seen⟩ := Document.foundRecognized found
    have there := sectionStays arena tidy built h (by decide) (by decide) attached seen
    exact h.memFindNarrowed arena (Document.scopeThere there) (tidy.sets container found)
  constructor
  · intro given
    obtain ⟨container, found, inside⟩ := given
    obtain ⟨before, there⟩ := (narrowed found).mp inside
    exact ⟨⟨container, found, before⟩, there⟩
  · intro given
    obtain ⟨⟨container, found, before⟩, there⟩ := given
    exact ⟨container, found, (narrowed found).mpr ⟨before, there⟩⟩

/- A part is there as long as the whole is, unless a pass chooses the part itself. -/
theorem partStays {whole part : NodeId} (belongs : d.NavigationPart whole part)
    (below : part ∈ d.descendants whole) (there : whole ∈ m.elements)
    (spared : ¬ Chosen g closure d part) : part ∈ m.elements := by
  obtain ⟨element, above⟩ := arena.memDescendants.mp below
  have attached : part ∈ d.elements :=
    arena.candidateElement (Document.scopeThere (h.elementBefore arena there)) below
  apply h.lowerStays arena there above element (Document.uncutAfter arena h attached spared)
  intro middle lower higher
  apply Document.uncutAfter arena h (arena.elementAbove attached lower)
  exact fun lost => tidy.between part attached whole above belongs middle lower higher
    (chosenMayGo arena built middle lost)

theorem endStays {association role : NodeId} (seen : d.recognizes .association association = true)
    (own : d.recognizes .associationEnd role = true) (below : role ∈ d.descendants association)
    (there : association ∈ m.elements) : role ∈ m.elements := by
  apply partStays arena tidy built h (.inr ⟨seen, own⟩) below there
  intro chosen
  have removable := chosenRemovable arena built role chosen
  exact absurd (Document.removableKind (Document.recognizedKind own) removable) (by decide)

theorem endsFound {association : NodeId} (seen : d.recognizes .association association = true)
    (there : association ∈ m.elements) :
    m.find .associationEnd (some association) = d.find .associationEnd (some association) := by
  refine h.findSame arena (Document.scopeThere there) fun role below own => ?_
  exact endStays arena tidy built h seen own below there

theorem memAssociationsFound {association : NodeId} :
    association ∈ g.sections.inSchemas m .association ↔
      association ∈ m.elements ∧ d.recognizes .association association = true := by
  have arena' := h.arena arena
  have schemaStays {schema : NodeId} (found : schema ∈ d.find .schema none) : schema ∈ m.elements := by
    obtain ⟨attached, seen⟩ := Document.foundRecognized found
    exact sectionStays arena tidy built h (by decide) (by decide) attached seen
  unfold Sections.inSchemas
  rw [(Document.sectionsParts (Document.navigationParts built).1).2, List.mem_flatMap]
  constructor
  · intro given
    obtain ⟨schema, found, inside⟩ := given
    obtain ⟨below, seen⟩ := Document.foundRecognized inside
    have there := arena'.candidateElement (Document.scopeThere (schemaStays found)) below
    exact ⟨there, h.recognizesBefore arena seen⟩
  · intro given
    obtain ⟨there, seen⟩ := given
    have alike := tidy.definitions .association (by decide)
    have attached := (arena'.memElements.mp there).2
    have found := (Document.memFindAlike alike).mpr ⟨h.elementBefore arena there, seen⟩
    obtain ⟨schema, foundSchema, above⟩ := tidy.inSchema association found
    have thereSchema := schemaStays foundSchema
    have alikeHere := arena'.alikeWithin
      (h.alikeLeft arena Document.noScope alike) thereSchema
    refine ⟨schema, foundSchema, (Document.memFindAlike alikeHere).mpr ⟨?_, ?_⟩⟩
    · exact arena'.memDescendants.mpr
        ⟨(arena'.memElements.mp there).1, h.ancestorsSame arena attached ▸ above⟩
    · rw [h.recognizesSame arena attached]
      exact seen

theorem memChosenAssociations {association : NodeId} : association ∈ associations g closure m ↔
    association ∈ m.elements ∧ d.recognizes .association association = true ∧
      ∃ role ∈ d.find .associationEnd (some association),
        ∃ name, d.reference? role "Type" = some name ∧ name ∉ closure.entities := by
  rw [memAssociations, memAssociationsFound arena tidy built h, Document.referenceSame h, and_assoc]
  refine and_congr_right fun there => and_congr_right fun seen => ?_
  rw [endsFound arena tidy built h seen there]

omit built in
theorem memPropertiesFound {entityType property : NodeId} (found : entityType ∈ d.find .entityType none)
    (there : entityType ∈ m.elements) : property ∈ m.find .navigationProperty (some entityType) ↔
      property ∈ d.find .navigationProperty (some entityType) ∧ property ∈ m.elements :=
  h.memFindNarrowed arena (Document.scopeThere there) (tidy.properties entityType found)

theorem keptTypeStays {entityType : NodeId} (found : entityType ∈ d.find .entityType none)
    {name : ShortName} (named : d.reference? entityType "Name" = some name)
    (kept : name ∈ closure.entities) : entityType ∈ m.elements := by
  obtain ⟨attached, seen⟩ := Document.foundRecognized found
  apply unchosenStays arena tidy built h (by decide) attached seen
  intro chosen
  obtain ⟨_, other, same, outside⟩ :=
    (memEntityTypes built).mp (chosenOfKind arena built chosen (Document.recognizedKind seen))
  rw [named] at same
  cases same
  exact outside kept

theorem keptAssociationStays {association : NodeId} (attached : association ∈ d.elements)
    (seen : d.recognizes .association association = true)
    (ends : ∀ role ∈ d.find .associationEnd (some association), ∀ type,
      d.reference? role "Type" = some type → type ∈ closure.entities) :
    association ∈ m.elements := by
  apply unchosenStays arena tidy built h (by decide) attached seen
  intro chosen
  have lose := stagesLose arena g closure
  obtain ⟨_, _, role, inside, type, typed, outside⟩ :=
    (memChosenAssociations arena tidy built lose.toTypes).mp
      (chosenOfKind arena built chosen (Document.recognizedKind seen))
  exact outside (ends role inside type typed)

omit built in
theorem definitionLeft {kind : ElementKind} (listed : kind ∈ [.entityType, .association])
    {name : ShortName} {id : NodeId} (first : d.definition? kind name = some id)
    (there : id ∈ m.elements) : m.definition? kind name = some id := by
  unfold Document.definition?
  rw [h.findNarrowed arena Document.noScope (tidy.definitions kind listed),
    Document.referenceSame h]
  exact findLeft first (decide_eq_true there)

omit built in
theorem definitionBefore {kind : ElementKind} (listed : kind ∈ [.entityType, .association])
    {name : ShortName} {id : NodeId} (first : m.definition? kind name = some id) :
    ∃ before, d.definition? kind name = some before := by
  obtain ⟨found, named⟩ := Document.definitionNamed first
  rw [Document.referenceSame h] at named
  have foundBefore := ((h.memFindNarrowed arena Document.noScope
    (tidy.definitions kind listed)).mp found).1
  apply Option.isSome_iff_exists.mp
  exact List.find?_isSome.mpr ⟨id, foundBefore, by simpa using named⟩

end Stage

section End

include arena tidy built

theorem leftIff {name : ShortName} :
    name ∈ associationsLeft g (importsRemoval g closure d).document ↔
      ∃ association ∈ (run g closure d).document.elements,
        d.recognizes .association association = true ∧
        d.reference? association "Name" = some name := by
  have lose := stagesLose arena g closure
  have arena' := lose.toImports.arena arena
  rw [memAssociationsLeft, Document.referenceSame lose.toImports]
  constructor
  · intro given
    obtain ⟨association, found, named⟩ := given
    obtain ⟨there, seen⟩ := (memAssociationsFound arena tidy built lose.toImports).mp found
    have attached := lose.toImports.elementBefore arena there
    refine ⟨association, ?_, seen, named⟩
    apply unchosenStays arena tidy built lose.toEnd (by decide) attached seen
    intro chosen
    -- It would have been detached two passes ago, but it still stands in its schema.
    have detached : (importsRemoval g closure d).document.parent? association = none :=
      lose.imports.detachedAfter (Document.removeAllDetaches (lose.toTypes.arena arena)
        (chosenOfKind arena built chosen (Document.recognizedKind seen)))
    have foundFirst := (Document.memFindAlike (tidy.definitions .association (by decide))).mpr
      ⟨attached, seen⟩
    obtain ⟨schema, _, above⟩ := tidy.inSchema association foundFirst
    rw [← lose.toImports.ancestorsSame arena (arena'.memElements.mp there).2,
      Document.Arena.ancestorsTop detached] at above
    cases above
  · intro given
    obtain ⟨association, there, seen, named⟩ := given
    have thereThen := lose.properties.elementBefore arena' there
    exact ⟨association, (memAssociationsFound arena tidy built lose.toImports).mpr ⟨thereThen, seen⟩,
      named⟩

theorem keptPropertyStays {entityType property : NodeId} (found : entityType ∈ d.find .entityType none)
    {name : ShortName} (named : d.reference? entityType "Name" = some name)
    (kept : name ∈ closure.entities)
    (inside : property ∈ d.find .navigationProperty (some entityType)) {relationship : ShortName}
    (refers : d.reference? property "Relationship" = some relationship)
    (left : relationship ∈ associationsLeft g (importsRemoval g closure d).document) :
    property ∈ (run g closure d).document.elements := by
  have lose := stagesLose arena g closure
  have there := keptTypeStays arena tidy built lose.toEnd found named kept
  obtain ⟨below, own⟩ := Document.foundRecognized inside
  have seen := (Document.foundRecognized found).2
  apply partStays arena tidy built lose.toEnd (.inl ⟨seen, own⟩) below there
  intro chosen
  obtain ⟨_, other, same, outside⟩ := (memNavigationProperties built).mp
    (chosenOfKind arena built chosen (Document.recognizedKind own))
  rw [Document.referenceSame lose.toImports, refers] at same
  cases same
  exact outside left

end End

section Followed

variable {requested : List ShortName} {name : ShortName}
  (kept : name ∈ (g.closure requested).value.entities)

include built kept in
theorem endsFollowed {relationship : ShortName} (follows : relationship ∈ g.relationships name)
    {association role : NodeId} (first : d.definition? .association relationship = some association)
    (inside : role ∈ d.find .associationEnd (some association)) {type : ShortName}
    (typed : d.reference? role "Type" = some type) : type ∈ (g.closure requested).value.entities := by
  have ends := (Document.memEnds built).mpr ⟨association, role, first, inside, typed⟩
  exact NavigationGraph.endsKept kept follows ends

include arena tidy built kept

theorem resolvedStays {relationship : ShortName} (follows : relationship ∈ g.relationships name)
    {association : NodeId} (first : d.definition? .association relationship = some association) :
    association ∈ (run g (g.closure requested).value d).document.elements := by
  have lose := stagesLose arena g (g.closure requested).value
  obtain ⟨attached, seen⟩ := Document.foundRecognized (Document.definitionNamed first).1
  exact keptAssociationStays arena tidy built lose.toEnd attached seen
    fun role inside type typed => endsFollowed built kept follows first inside typed

theorem followedPropertyStays {entityType property association : NodeId} {relationship : ShortName}
    (firstType : d.definition? .entityType name = some entityType)
    (inside : property ∈ d.find .navigationProperty (some entityType))
    (refers : d.reference? property "Relationship" = some relationship)
    (first : d.definition? .association relationship = some association) :
    property ∈ (run g (g.closure requested).value d).document.elements := by
  obtain ⟨found, named⟩ := Document.definitionNamed firstType
  obtain ⟨foundAssociation, namedAssociation⟩ := Document.definitionNamed first
  have follows := (Document.memRelationships built).mpr
    ⟨entityType, property, firstType, inside, refers⟩
  have stays := resolvedStays arena tidy built kept follows first
  apply keptPropertyStays arena tidy built found named kept inside refers
  exact (leftIff arena tidy built).mpr
    ⟨association, stays, (Document.foundRecognized foundAssociation).2, namedAssociation⟩

theorem leadsSame {m : ShortName} :
    (run g (g.closure requested).value d).document.Leads name m ↔ d.Leads name m := by
  have lose := (stagesLose arena g (g.closure requested).value).toEnd
  have sameReferences := Document.referenceSame lose
  have typeStays {entityType : NodeId} (first : d.definition? .entityType name = some entityType) :
      entityType ∈ (run g (g.closure requested).value d).document.elements := by
    obtain ⟨found, named⟩ := Document.definitionNamed first
    exact keptTypeStays arena tidy built lose found named kept
  refine and_congr_right fun _ => ⟨fun given => ?_, fun given => ?_⟩
  · obtain ⟨entityType, property, relationship, association, role, firstType, inside, refers, first,
      foundRole, typed⟩ := given
    rw [sameReferences] at refers typed
    obtain ⟨typeBefore, firstBefore⟩ := definitionBefore arena tidy lose (by decide) firstType
    cases firstType.symm.trans
      (definitionLeft arena tidy lose (by decide) firstBefore (typeStays firstBefore))
    have foundType := (Document.definitionNamed firstBefore).1
    have insideBefore := ((memPropertiesFound arena tidy lose foundType
      (typeStays firstBefore)).mp inside).1
    have follows := (Document.memRelationships built).mpr
      ⟨entityType, property, firstBefore, insideBefore, refers⟩
    obtain ⟨associationBefore, firstAssociation⟩ := definitionBefore arena tidy lose (by decide) first
    have stays := resolvedStays arena tidy built kept follows firstAssociation
    cases first.symm.trans (definitionLeft arena tidy lose (by decide) firstAssociation stays)
    have seen := (Document.foundRecognized (Document.definitionNamed firstAssociation).1).2
    rw [endsFound arena tidy built lose seen stays] at foundRole
    exact ⟨entityType, property, relationship, association, role, firstBefore, insideBefore, refers,
      firstAssociation, foundRole, typed⟩
  · obtain ⟨entityType, property, relationship, association, role, firstType, inside, refers, first,
      foundRole, typed⟩ := given
    have follows := (Document.memRelationships built).mpr
      ⟨entityType, property, firstType, inside, refers⟩
    have stays := resolvedStays arena tidy built kept follows first
    have propertyStays := followedPropertyStays arena tidy built kept firstType inside refers first
    have foundType := (Document.definitionNamed firstType).1
    have seen := (Document.foundRecognized (Document.definitionNamed first).1).2
    have foundProperty := (memPropertiesFound arena tidy lose foundType (typeStays firstType)).mpr
      ⟨inside, propertyStays⟩
    rw [← endsFound arena tidy built lose seen stays] at foundRole
    rw [← sameReferences] at refers typed
    exact ⟨entityType, property, relationship, association, role,
      definitionLeft arena tidy lose (by decide) firstType (typeStays firstType), foundProperty,
      refers, definitionLeft arena tidy lose (by decide) first stays, foundRole, typed⟩

end Followed

/- So for names that are kept it makes no difference to follow navigation in what is left. -/
theorem closureLeft (arena : d.Arena) (tidy : d.Tidy) (built : d.navigation = .ok g)
    {requested later : List ShortName} {g' : NavigationGraph}
    (builtLeft : (run g (g.closure requested).value d).document.navigation = .ok g')
    (inside : ∀ n ∈ later, n ∈ (g.closure requested).value.entities) :
    (g'.closure later).value = (g.closure later).value := by
  apply NavigationGraph.closureAgrees inside fun n kept m => NavigationGraph.closureClosed kept
  intro n kept m
  rw [Document.neighborIffLeads builtLeft, Document.neighborIffLeads built]
  exact leadsSame arena tidy built kept

end Pruning

theorem Document.Tidy.pruneAgain {d : Document} (tidy : d.Tidy) (arena : d.Arena)
    {requested : List ShortName} {first : Logged Pruned} (ok : d.prune requested = .ok first)
    (later : List ShortName) : ∃ second, first.value.document.prune later = .ok second := by
  obtain ⟨g, built, _, left, _⟩ := pruneParts ok
  have lose := Pruning.stagesLose arena g first.value.closure
  have located := Pruning.sectionsSame arena tidy built lose.toEnd
  rw [← left] at located
  obtain ⟨again, builtAgain⟩ := navigationOf located
  exact pruneOf builtAgain later

end EdmxPruning
