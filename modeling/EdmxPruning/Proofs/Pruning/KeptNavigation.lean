import EdmxPruning.Proofs.Document.Remainder
import EdmxPruning.Proofs.Pruning.Integrity

/-! Types that are kept keep their navigation. The closure followed every relationship of a kept
type, so the first association of that name has no end outside of it and is not removed, and the
last pass finds its name among those that are left. -/
namespace EdmxPruning

namespace Document

def firstNamed? (d : Document) (kind : ElementKind) (name : ShortName) : Option NodeId :=
  d.elements.find? fun id => d.hasKind kind id && decide (d.reference? id "Name" = some name)

/- What is left of one navigation property: it stays if and only if there was an association for it,
and then the first such association is there too, whole, and leads to kept types only. -/
structure NavigationKept (d after : Document) (kept : NameSet) (property : NodeId)
    (relationship : ShortName) : Prop where
  stays : property ∈ after.elements ↔ ∃ association ∈ d.elements,
    d.hasKind .association association = true ∧
    d.reference? association "Name" = some relationship
  resolves : property ∈ after.elements → ∃ association,
    d.firstNamed? .association relationship = some association ∧
    association ∈ after.elements ∧
    ∀ role ∈ d.elements, d.hasKind .associationEnd role = true → association ∈ d.ancestors role →
      role ∈ after.elements ∧ ∀ type, d.reference? role "Type" = some type →
        type ∈ kept ∧ ∀ id ∈ d.elements, d.hasKind .entityType id = true →
          d.reference? id "Name" = some type → id ∈ after.elements

theorem Conventional.definitionFirst {d : Document} (conv : d.Conventional) {kind : ElementKind}
    (metadata : kind ∈ ElementKind.metadata) (name : ShortName) :
    d.definition? kind name = d.firstNamed? kind name := by
  unfold definition? firstNamed?
  rw [conv.findAll metadata, List.find?_filter]
  simp

theorem firstNamedOfSome {d : Document} {kind : ElementKind} {name : ShortName} {id : NodeId}
    (attached : id ∈ d.elements) (own : d.hasKind kind id = true)
    (named : d.reference? id "Name" = some name) : ∃ first, d.firstNamed? kind name = some first := by
  apply Option.isSome_iff_exists.mp
  exact List.find?_isSome.mpr ⟨id, attached, by simp [own, named]⟩

theorem firstNamedParts {d : Document} {kind : ElementKind} {name : ShortName} {id : NodeId}
    (first : d.firstNamed? kind name = some id) :
    id ∈ d.elements ∧ d.hasKind kind id = true ∧ d.reference? id "Name" = some name := by
  have chosen := List.find?_some first
  simp only [Bool.and_eq_true, decide_eq_true_eq] at chosen
  exact ⟨List.mem_of_find?_eq_some first, chosen⟩

end Document

namespace Pruning

section Followed

variable {d : Document} {g : NavigationGraph} (arena : d.Arena) (conv : d.Conventional)
  (built : d.navigation = .ok g) {requested : List ShortName} {name relationship : ShortName}
  (kept : name ∈ (g.closure requested).value.entities) {entityType property : NodeId}
  (first : d.firstNamed? .entityType name = some entityType)
  (above : d.parent? property = some entityType)
  (own : d.hasKind .navigationProperty property = true)
  (refers : d.reference? property "Relationship" = some relationship)
include arena conv first above own

theorem propertyOfFirst : d.definition? .entityType name = some entityType ∧
    property ∈ d.find .navigationProperty (some entityType) := by
  obtain ⟨attached, _, _⟩ := Document.firstNamedParts first
  have below := (arena.memAncestorsChild above).mpr (.inl rfl)
  exact ⟨(conv.definitionFirst (by decide) name).trans first,
    (conv.memFindBelow arena (by decide) (arena.memElements.mp attached).2).mpr ⟨own, below⟩⟩

include built refers

theorem associationOfLeft {closure : Closure}
    (there : property ∈ (run g closure d).document.elements) :
    ∃ association ∈ d.elements, d.hasKind .association association = true ∧
      d.reference? association "Name" = some relationship := by
  have lose := stagesLose arena g closure
  obtain ⟨_, _, named⟩ := Document.firstNamedParts first
  have attached := ((lose.toEnd.arena arena).memElements.mp there).2
  have aboveThen : (run g closure d).document.parent? property = some entityType := by
    rw [lose.toEnd.parentSame arena attached]
    exact above
  obtain ⟨association, left, rest⟩ :=
    propertyOfLeft arena conv built there own aboveThen named refers
  exact ⟨association, lose.toEnd.elementBefore arena left, rest⟩

include kept

theorem runKeepsNavigation :
    d.NavigationKept (run g (g.closure requested).value d).document
      (g.closure requested).value.entities property relationship := by
  have tidy := conv.tidy arena
  have lose := stagesLose arena g (g.closure requested).value
  obtain ⟨firstType, inside⟩ := propertyOfFirst arena conv first above own
  have follows := (Document.memRelationships built).mpr
    ⟨entityType, property, firstType, inside, refers⟩
  refine ⟨⟨associationOfLeft arena conv built first above own refers, ?_⟩, ?_⟩
  · intro given
    obtain ⟨association, attachedA, ownA, namedA⟩ := given
    obtain ⟨firstA, found⟩ := Document.firstNamedOfSome attachedA ownA namedA
    rw [← conv.definitionFirst (by decide)] at found
    exact followedPropertyStays arena tidy built kept firstType inside refers found
  · intro there
    obtain ⟨association, attachedA, ownA, namedA⟩ :=
      associationOfLeft arena conv built first above own refers there
    obtain ⟨firstA, found⟩ := Document.firstNamedOfSome attachedA ownA namedA
    obtain ⟨attachedFirst, ownFirst, _⟩ := Document.firstNamedParts found
    have insideFirst := (arena.memElements.mp attachedFirst).2
    have definition := (conv.definitionFirst (by decide) relationship).trans found
    have stays := resolvedStays arena tidy built kept follows definition
    refine ⟨firstA, found, stays, ?_⟩
    intro role attachedRole ownRole below
    have insideRole := (conv.memFindBelow arena (by decide) insideFirst).mpr ⟨ownRole, below⟩
    refine ⟨endStays arena tidy built lose.toEnd
      ((conv.recognizesAll (by decide) attachedFirst).mpr ownFirst)
      ((conv.recognizesAll (by decide) attachedRole).mpr ownRole)
      (Document.memFind insideRole).1 stays, ?_⟩
    intro type typed
    have keptType := endsFollowed built kept follows definition insideRole typed
    refine ⟨keptType, ?_⟩
    intro id attachedId ownId namedId
    have foundId := (conv.memFindAll (by decide)).mpr ⟨attachedId, ownId⟩
    exact keptTypeStays arena tidy built lose.toEnd foundId namedId keptType

end Followed

end Pruning

theorem pruningKeepsNavigation {d : Document} (reached : d.Reached) (conv : d.Conventional)
    {requested : List ShortName} {pruned : Logged Pruned} (ok : d.prune requested = .ok pruned)
    {name : ShortName} {entityType : NodeId} (first : d.firstNamed? .entityType name = some entityType)
    (kept : name ∈ pruned.value.closure.entities) {property : NodeId}
    (above : d.parent? property = some entityType)
    (own : d.hasKind .navigationProperty property = true) {relationship : ShortName}
    (refers : d.reference? property "Relationship" = some relationship) :
    d.NavigationKept pruned.value.document pruned.value.closure.entities property relationship := by
  obtain ⟨g, built, closed, left, _⟩ := Document.pruneParts ok
  rw [closed] at kept
  rw [left, closed]
  exact Pruning.runKeepsNavigation reached.arena conv built kept first above own refers

theorem oneWayKeepsNavigation : ∃ d pruned property, Document.parse oneWay = .ok d ∧
    d.prune [⟨"A"⟩] = .ok pruned ∧ property ∈ pruned.value.document.elements ∧
    d.NavigationKept pruned.value.document pruned.value.closure.entities property ⟨"R"⟩ := by
  obtain ⟨d, read, facts⟩ := Document.okWith (x := Document.parse oneWay)
    (p := fun d => decide (d.Conventional ∧ d.firstNamed? .entityType ⟨"A"⟩ = some 2 ∧
        d.parent? 3 = some 2 ∧ d.hasKind .navigationProperty 3 = true ∧
        d.reference? 3 "Relationship" = some ⟨"R"⟩) &&
      (d.prune [⟨"A"⟩]).toOption.any fun pruned =>
        ⟨"A"⟩ ∈ pruned.value.closure.entities ∧ 3 ∈ pruned.value.document.elements)
    (by decide +kernel)
  obtain ⟨shape, prunes⟩ := Bool.and_eq_true_iff.mp facts
  obtain ⟨conv, first, above, own, refers⟩ := of_decide_eq_true shape
  obtain ⟨pruned, ok, kept⟩ := Document.okWith prunes
  obtain ⟨asked, there⟩ := of_decide_eq_true kept
  have navigation := pruningKeepsNavigation (.parsed read) conv ok first asked above own refers
  exact ⟨d, pruned, 3, read, ok, there, navigation⟩

end EdmxPruning
