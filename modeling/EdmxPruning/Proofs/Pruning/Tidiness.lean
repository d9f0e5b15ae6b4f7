import EdmxPruning.Proofs.Pruning.Survival

/-! Tidy documents: searches that removals could narrow hide nothing, and what is removed holds
nothing else that matters. Namespaces may differ from section to section, and elements that no
placement accepts may stand anywhere. Conventional documents are tidy. -/
namespace EdmxPruning

namespace Document

instance (d : Document) (id : NodeId) : Decidable (d.MayGo id) := by
  unfold MayGo
  infer_instance

def NavigationPart (d : Document) (whole part : NodeId) : Prop :=
  (d.recognizes .entityType whole = true ∧ d.recognizes .navigationProperty part = true) ∨
    (d.recognizes .association whole = true ∧ d.recognizes .associationEnd part = true)

instance (d : Document) (whole part : NodeId) : Decidable (d.NavigationPart whole part) := by
  unfold NavigationPart
  infer_instance

structure Tidy (d : Document) : Prop where
  definitions : ∀ kind ∈ [.entityType, .association], d.PlacedAlike kind none
  sets : ∀ container ∈ d.find .entityContainer none, d.PlacedAlike .entitySet (some container)
  properties : ∀ entityType ∈ d.find .entityType none,
    d.PlacedAlike .navigationProperty (some entityType)
  clear : ∀ kind ∈ ElementKind.upper, ∀ id ∈ d.elements, d.recognizes kind id = true →
    ∀ above ∈ d.ancestors id, ¬ d.MayGo above
  between : ∀ part ∈ d.elements, ∀ whole ∈ d.ancestors part, d.NavigationPart whole part →
    ∀ middle ∈ d.ancestors part, whole ∈ d.ancestors middle → ¬ d.MayGo middle
  inSchema : ∀ association ∈ d.find .association none,
    ∃ schema ∈ d.find .schema none, schema ∈ d.ancestors association

instance (d : Document) : Decidable d.Tidy :=
  decidable_of_iff
    ((∀ kind ∈ [ElementKind.entityType, .association], d.PlacedAlike kind none) ∧
      (∀ container ∈ d.find .entityContainer none, d.PlacedAlike .entitySet (some container)) ∧
      (∀ entityType ∈ d.find .entityType none,
        d.PlacedAlike .navigationProperty (some entityType)) ∧
      (∀ kind ∈ ElementKind.upper, ∀ id ∈ d.elements, d.recognizes kind id = true →
        ∀ above ∈ d.ancestors id, ¬ d.MayGo above) ∧
      (∀ part ∈ d.elements, ∀ whole ∈ d.ancestors part, d.NavigationPart whole part →
        ∀ middle ∈ d.ancestors part, whole ∈ d.ancestors middle → ¬ d.MayGo middle) ∧
      ∀ association ∈ d.find .association none,
        ∃ schema ∈ d.find .schema none, schema ∈ d.ancestors association)
    ⟨fun ⟨definitions, sets, properties, clear, between, inSchema⟩ =>
        ⟨definitions, sets, properties, clear, between, inSchema⟩,
      fun ⟨definitions, sets, properties, clear, between, inSchema⟩ =>
        ⟨definitions, sets, properties, clear, between, inSchema⟩⟩

/- Metadata of the kinds that are removed stands neither above an entity type's property, but for
the type, nor above the end of an association, but for the association. -/
theorem Conventional.partClear {d : Document} (conv : d.Conventional) (arena : d.Arena)
    {whole part middle : NodeId} (attached : part ∈ d.elements) (belongs : d.NavigationPart whole part)
    (lower : middle ∈ d.ancestors part) (higher : whole ∈ d.ancestors middle) : ¬ d.MayGo middle := by
  intro may
  obtain ⟨kind, listed, seen⟩ := may
  have own := recognizedKind seen
  have metadata := ElementKind.removableMetadata listed
  have attachedMiddle := arena.elementAbove attached lower
  have holders {above : ElementKind} (inMetadata : above ∈ ElementKind.metadata)
      (ownAbove : d.hasKind above whole = true) : above ∈ kind.holders :=
    conv.kindAbove arena attachedMiddle own (ElementKind.removableHeld listed) higher inMetadata
      ownAbove
  rcases belongs with ⟨ownWhole, ownPart⟩ | ⟨ownWhole, _⟩
  · have isProperty := holders (by decide) (recognizedKind ownWhole)
    have inType := conv.kindAbove arena attached (recognizedKind ownPart) rfl lower metadata own
    revert isProperty inType
    cases kind <;> decide
  · exact ElementKind.associationHoldsNone listed (holders (by decide) (recognizedKind ownWhole))

theorem Conventional.tidy {d : Document} (conv : d.Conventional) (arena : d.Arena) : d.Tidy where
  definitions kind listed := by
    refine conv.alike arena ?_ noScope
    revert listed
    cases kind <;> decide
  sets container found := conv.alike arena (by decide) (scopeThere (memFind found).1)
  properties entityType found := conv.alike arena (by decide) (scopeThere (memFind found).1)
  clear kind upper id attached seen above higher may :=
    upperClear arena conv upper attached (recognizedKind seen) above higher (mayGoRemovable may)
  between part attached whole _ belongs middle lower higher :=
    conv.partClear arena attached belongs lower higher
  inSchema association found := by
    obtain ⟨attached, own⟩ := (conv.memFindAll (by decide)).mp found
    obtain ⟨schema, parent, ownSchema⟩ := conv.heldBy attached own rfl
    have above : schema ∈ d.ancestors association := (arena.memAncestorsChild parent).mpr (.inl rfl)
    exact ⟨schema, (conv.memFindAll (by decide)).mpr ⟨arena.elementAbove attached above, ownSchema⟩,
      above⟩

end Document
end EdmxPruning
