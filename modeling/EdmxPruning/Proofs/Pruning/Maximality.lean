import EdmxPruning.Proofs.Pruning.Integrity

/-! Pruning keeps the most it can. Any part of a conventional document that refers to kept types only,
with its associations whole, survives every run that keeps at least these types. -/
namespace EdmxPruning

/- A part of a document in which nothing dangles and no association lacks an end. -/
structure Document.IntactPart (d part : Document) (kept lost : NameSet) : Prop where
  left : d.Loses part fun _ => True
  intact : part.Intact kept lost
  whole : ∀ association ∈ part.elements, d.hasKind .association association = true →
    ∀ role ∈ d.elements, d.hasKind .associationEnd role = true → association ∈ d.ancestors role →
      role ∈ part.elements

namespace Pruning

section Whole

variable {d : Document} {g : NavigationGraph} (arena : d.Arena) (conv : d.Conventional)
  (built : d.navigation = .ok g)
include arena conv built

theorem endWithAssociation {closure : Closure} {association role : NodeId}
    (there : association ∈ (run g closure d).document.elements)
    (own : d.hasKind .association association = true) (attached : role ∈ d.elements)
    (ownRole : d.hasKind .associationEnd role = true) (above : association ∈ d.ancestors role) :
    role ∈ (run g closure d).document.elements := by
  have lose := stagesLose arena g closure
  have seen := (conv.recognizesAll (by decide) (lose.toEnd.elementBefore arena there)).mpr own
  have seenRole := (conv.recognizesAll (by decide) attached).mpr ownRole
  have below := arena.memDescendants.mpr ⟨Document.hasKindElement ownRole, above⟩
  exact endStays arena (conv.tidy arena) built lose.toEnd seen seenRole below there

theorem runPart (closure : Closure) :
    d.IntactPart (run g closure d).document closure.entities (gone g closure d) where
  left := (stagesLose arena g closure).toEnd.weaken fun _ _ => trivial
  intact := runIntact arena conv built closure
  whole _ there own _ attached ownRole above :=
    endWithAssociation arena conv built there own attached ownRole above

end Whole

section Spared

variable {d m part : Document} {cut : NodeId → Prop} {g : NavigationGraph} {closure : Closure}
  {kept lost : NameSet} (arena : d.Arena) (conv : d.Conventional) (toM : d.Loses m cut)
  (built : m.navigation = .ok g) (intact : d.IntactPart part kept lost)
  (within : ∀ id ∈ part.elements, id ∈ m.elements)
  (wider : ∀ name ∈ kept, name ∈ closure.entities)
include arena conv toM built intact within wider

theorem associationSpared {association : NodeId} (there : association ∈ part.elements)
    (own : d.hasKind .association association = true) : ¬ Chosen g closure m association := by
  intro chosen
  have arenaM := toM.arena arena
  have lose := stagesLose arenaM g closure
  have tidy := (toM.conventional arena conv).tidy arenaM
  obtain ⟨_, _, role, found, name, typed, outside⟩ := (memChosenAssociations arenaM tidy built
    lose.toTypes).mp (chosenOfKind arenaM built chosen (toM.hasKindSame _ ▸ own))
  obtain ⟨below, ownRole⟩ := Document.memFind found
  have attached := arenaM.candidateElement (Document.scopeThere (within association there)) below
  have above := (arenaM.memDescendants.mp below).2
  rw [toM.ancestorsSame arena (arenaM.memElements.mp attached).2] at above
  rw [toM.hasKindSame] at ownRole
  have stays := intact.whole association there own role (toM.elementBefore arena attached) ownRole above
  have aboveThen : association ∈ part.ancestors role := by
    rw [intact.left.ancestorsSame arena ((intact.left.arena arena).memElements.mp stays).2]
    exact above
  rw [Document.referenceSame toM, ← Document.referenceSame intact.left] at typed
  rw [← intact.left.hasKindSame] at ownRole own
  have inside := intact.intact.ends role stays ownRole association aboveThen own name typed
  exact outside (wider name inside)

theorem associationOutlives {association : NodeId} (there : association ∈ part.elements)
    (own : d.hasKind .association association = true) :
    association ∈ (run g closure m).document.elements := by
  have arenaM := toM.arena arena
  have lose := (stagesLose arenaM g closure).toEnd
  have attached := within association there
  apply Document.upperStays arenaM lose (toM.conventional arena conv) (chosenRemovable arenaM built)
    (by decide) attached (toM.hasKindSame _ ▸ own)
  exact Document.uncutAfter arenaM lose attached
    (associationSpared arena conv toM built intact within wider there own)

theorem propertySpared {property : NodeId} (there : property ∈ part.elements)
    (chosen : property ∈ navigationProperties g closure (importsRemoval g closure m).document) :
    False := by
  have arenaM := toM.arena arena
  have arenaPart := intact.left.arena arena
  have convM := toM.conventional arena conv
  have lose := stagesLose arenaM g closure
  obtain ⟨⟨entityType, foundType, ⟨typeName, named, _⟩, inside⟩, name, refers, dangling⟩ :=
    (memNavigationProperties built).mp chosen
  obtain ⟨below, own⟩ := Document.memFind inside
  have above := lose.toImports.ancestorsBefore arenaM ((lose.toImports.arena arenaM).memDescendants.mp
    below).2
  have aboveFirst := toM.ancestorsBefore arena above
  rw [← intact.left.ancestorsSame arena (arenaPart.memElements.mp there).2] at aboveFirst
  have ownType := (Document.memFind foundType).2
  rw [lose.toImports.hasKindSame, toM.hasKindSame, ← intact.left.hasKindSame] at own
  rw [toM.hasKindSame, ← intact.left.hasKindSame] at ownType
  rw [Document.referenceSame toM, ← Document.referenceSame intact.left] at named
  rw [Document.referenceSame lose.toImports, Document.referenceSame toM,
    ← Document.referenceSame intact.left] at refers
  have parent := (intact.left.conventional arena conv).typeOfProperty arenaPart there own aboveFirst
    ownType
  obtain ⟨association, thereAssociation, ownAssociation, same⟩ :=
    intact.intact.properties property there own entityType parent (by rw [named]; rfl) name refers
  rw [intact.left.hasKindSame] at ownAssociation
  rw [Document.referenceSame intact.left, ← Document.referenceSame toM] at same
  have stays := associationOutlives arena conv toM built intact within wider thereAssociation
    ownAssociation
  rw [← toM.hasKindSame] at ownAssociation
  have seen := (convM.recognizesAll (by decide) (within association thereAssociation)).mpr
    ownAssociation
  exact dangling ((leftIff arenaM (convM.tidy arenaM) built).mpr ⟨association, stays, seen, same⟩)

variable (counted : ∀ name ∈ gone g closure m, name ∈ lost)
include counted

theorem spared {id : NodeId} (there : id ∈ part.elements) : ¬ Chosen g closure m id := by
  intro chosen
  have arenaM := toM.arena arena
  have lose := stagesLose arenaM g closure
  have kinds (kind : ElementKind) : part.hasKind kind = m.hasKind kind :=
    (intact.left.hasKindSame kind).trans (toM.hasKindSame kind).symm
  have references : part.reference? = m.reference? :=
    (Document.referenceSame intact.left).trans (Document.referenceSame toM).symm
  cases chosen with
  | entitySet h =>
    obtain ⟨found, name, refers, outside⟩ := memEntitySets.mp h
    rw [← references] at refers
    have own := hasKindScoped found
    rw [← kinds] at own
    exact outside (wider name (intact.intact.entitySets id there own name refers))
  | entityType h =>
    obtain ⟨found, name, named, outside⟩ := (memEntityTypes built).mp h
    rw [← references] at named
    have own := (Document.memFind found).2
    rw [← kinds] at own
    exact outside (wider name (intact.intact.entityTypes id there own name named))
  | association h =>
    have own := hasKindScoped (memAssociations.mp h).1
    rw [lose.toTypes.hasKindSame, toM.hasKindSame] at own
    exact associationSpared arena conv toM built intact within wider there own (.association h)
  | functionImport h =>
    obtain ⟨found, name, returns, gone, _⟩ := memFunctionImports.mp h
    have own := hasKindScoped found
    rw [lose.toAssociations.hasKindSame, ← kinds] at own
    rw [lose.toAssociations.attributeSame, toM.attributeSame, ← intact.left.attributeSame] at returns
    exact intact.intact.functionImports id there own name returns (counted name gone)
  | navigationProperty h => exact propertySpared arena conv toM built intact within wider there h

theorem intactPartStays {id : NodeId} (there : id ∈ part.elements) :
    id ∈ (run g closure m).document.elements := by
  have arenaM := toM.arena arena
  have lose := (stagesLose arenaM g closure).toEnd
  have untouched {x : NodeId} (inside : x ∈ part.elements) : ¬ Chosen g closure m x :=
    spared arena conv toM built intact within wider counted inside
  have attached := within id there
  apply Document.clearStays arenaM lose attached _
    (Document.uncutAfter arenaM lose attached (untouched there))
  intro above higher
  have arenaPart := intact.left.arena arena
  rw [toM.ancestorsSame arena (arenaM.memElements.mp attached).2,
    ← intact.left.ancestorsSame arena (arenaPart.memElements.mp there).2] at higher
  exact untouched (arenaPart.elementAbove there higher)

end Spared

end Pruning
end EdmxPruning
