import EdmxPruning.Metadata.Sections
import EdmxPruning.Proofs.Metadata.Recognition

/-! Conventional documents: all metadata is placed alike, and every kind of element stands where it
belongs. In them a search finds all there is, in whatever scope it looks. -/
namespace EdmxPruning

namespace ElementKind

def metadata : List ElementKind :=
  [.schema, .entityContainer, .entityType, .navigationProperty, .association, .associationEnd,
   .entitySet, .functionImport]

def holder? : ElementKind → Option ElementKind
  | .entityContainer | .entityType | .association => some .schema
  | .entitySet | .functionImport => some .entityContainer
  | .navigationProperty => some .entityType
  | .dataServices | .schema | .associationEnd => none

def holders : ElementKind → List ElementKind
  | .entityContainer | .entityType | .association => [.schema]
  | .entitySet | .functionImport => [.entityContainer, .schema]
  | .navigationProperty => [.entityType, .schema]
  | .dataServices | .schema | .associationEnd => []

theorem metadataOfHolder {kind holder : ElementKind} (holds : kind.holder? = some holder) :
    kind ∈ metadata := by
  cases kind <;> cases holds <;> decide

theorem holdersOfHolder {kind holder : ElementKind} (holds : kind.holder? = some holder) :
    kind.holders = holder :: holder.holders ∧
      (holder = .schema ∨ holder.holder? = some .schema) := by
  cases kind <;> cases holds <;> decide

end ElementKind

namespace Document

structure Conventional (d : Document) : Prop where
  onePlacement : ∃ placement ∈ Placement.ordered, ∀ kind ∈ ElementKind.metadata,
    ∀ id ∈ d.elements, d.hasKind kind id = true → d.placement? id = some placement
  schemasOutside : ∀ id ∈ d.elements, d.hasKind .schema id = true →
    ∀ above ∈ d.ancestors id, ∀ kind ∈ ElementKind.metadata, d.hasKind kind above = false
  held : ∀ kind ∈ ElementKind.metadata, ∀ id ∈ d.elements, d.hasKind kind id = true →
    ∀ holder ∈ kind.holder?, (d.parent? id).any (d.hasKind holder) = true

instance (d : Document) : Decidable d.Conventional :=
  decidable_of_iff
    ((∃ placement ∈ Placement.ordered, ∀ kind ∈ ElementKind.metadata,
        ∀ id ∈ d.elements, d.hasKind kind id = true → d.placement? id = some placement) ∧
      (∀ id ∈ d.elements, d.hasKind .schema id = true →
        ∀ above ∈ d.ancestors id, ∀ kind ∈ ElementKind.metadata, d.hasKind kind above = false) ∧
      ∀ kind ∈ ElementKind.metadata, ∀ id ∈ d.elements, d.hasKind kind id = true →
        ∀ holder ∈ kind.holder?, (d.parent? id).any (d.hasKind holder) = true)
    ⟨fun ⟨one, outside, held⟩ => ⟨one, outside, held⟩,
      fun ⟨one, outside, held⟩ => ⟨one, outside, held⟩⟩

section Uniform

variable {d : Document} {kind : ElementKind} {scope : Option NodeId} {placement : Placement}
  (listed : placement ∈ Placement.ordered)
  (uniform : ∀ id ∈ d.candidates scope, d.hasKind kind id = true →
    d.placement? id = some placement)
include listed uniform

theorem alikeUniform : d.PlacedAlike kind scope :=
  ⟨placement, listed, fun id inside own _ found =>
    Option.some.inj (found.symm.trans (uniform id inside own))⟩

theorem findUniform : d.find kind scope = (d.candidates scope).filter (d.hasKind kind) := by
  rw [findAlike (alikeUniform listed uniform)]
  refine List.filter_congr fun id inside => Bool.eq_iff_iff.mpr ⟨recognizedKind, fun own => ?_⟩
  exact recognizesParts.mpr ⟨own, placement, uniform id inside own⟩

end Uniform

namespace Conventional

variable {d : Document} {kind : ElementKind}

theorem findAll (conv : d.Conventional) (metadata : kind ∈ ElementKind.metadata) :
    d.find kind none = d.elements.filter (d.hasKind kind) := by
  obtain ⟨placement, listed, uniform⟩ := conv.onePlacement
  exact findUniform listed fun id inside own => uniform kind metadata id inside own

theorem memFindAll (conv : d.Conventional) (metadata : kind ∈ ElementKind.metadata) {id : NodeId} :
    id ∈ d.find kind none ↔ id ∈ d.elements ∧ d.hasKind kind id = true := by
  rw [conv.findAll metadata, List.mem_filter]

theorem alike (conv : d.Conventional) (arena : d.Arena) (metadata : kind ∈ ElementKind.metadata)
    {scope : Option NodeId} (there : ∀ s ∈ scope, s ∈ d.elements) : d.PlacedAlike kind scope := by
  obtain ⟨placement, listed, uniform⟩ := conv.onePlacement
  exact alikeUniform listed fun id inside =>
    uniform kind metadata id (arena.candidateElement there inside)

theorem recognizesAll (conv : d.Conventional) (metadata : kind ∈ ElementKind.metadata) {id : NodeId}
    (attached : id ∈ d.elements) : d.recognizes kind id = true ↔ d.hasKind kind id = true := by
  obtain ⟨placement, _, uniform⟩ := conv.onePlacement
  exact ⟨recognizedKind, fun own =>
    recognizesParts.mpr ⟨own, placement, uniform kind metadata id attached own⟩⟩

theorem memFindBelow (conv : d.Conventional) (arena : d.Arena)
    (metadata : kind ∈ ElementKind.metadata) {scope id : NodeId} (attached : d.Attached scope) :
    id ∈ d.find kind (some scope) ↔ d.hasKind kind id = true ∧ scope ∈ d.ancestors id := by
  obtain ⟨placement, listed, uniform⟩ := conv.onePlacement
  have all : d.find kind (some scope) = (d.descendants scope).filter (d.hasKind kind) := by
    refine findUniform listed fun id inside own => uniform kind metadata id ?_ own
    obtain ⟨element, above⟩ := arena.memDescendants.mp inside
    exact arena.memElements.mpr ⟨element, arena.attachedBelow attached above⟩
  rw [all, List.mem_filter, arena.memDescendants]
  exact ⟨fun ⟨⟨_, above⟩, own⟩ => ⟨own, above⟩,
    fun ⟨own, above⟩ => ⟨⟨hasKindElement own, above⟩, own⟩⟩

theorem heldBy (conv : d.Conventional) {id : NodeId} (attached : id ∈ d.elements)
    (own : d.hasKind kind id = true) {holder : ElementKind} (holds : kind.holder? = some holder) :
    ∃ parent, d.parent? id = some parent ∧ d.hasKind holder parent = true := by
  have := conv.held kind (ElementKind.metadataOfHolder holds) id attached own holder holds
  cases above : d.parent? id with
  | none => rw [above] at this; cases this
  | some parent => rw [above] at this; exact ⟨parent, rfl, this⟩

theorem kindAboveInSchema (conv : d.Conventional) (arena : d.Arena) {id a : NodeId}
    {above : ElementKind} (attached : id ∈ d.elements) (own : d.hasKind kind id = true)
    (inSchema : kind.holder? = some .schema) (h : a ∈ d.ancestors id)
    (metadata : above ∈ ElementKind.metadata) (kindAbove : d.hasKind above a = true) :
    above = .schema := by
  obtain ⟨parent, parentAbove, schema⟩ := conv.heldBy attached own inSchema
  rcases (arena.memAncestorsChild parentAbove).mp h with same | higher
  · exact hasKindUnique kindAbove (same ▸ schema)
  · have inside := arena.elementAbove attached
      ((arena.memAncestorsChild parentAbove).mpr (.inl rfl))
    rw [conv.schemasOutside parent inside schema a higher above metadata] at kindAbove
    cases kindAbove

/- Above an element that is held there is metadata of the kinds that hold it and of no other. -/
theorem kindAbove (conv : d.Conventional) (arena : d.Arena) {id a : NodeId} {above : ElementKind}
    (attached : id ∈ d.elements) (own : d.hasKind kind id = true)
    (held : kind.holder?.isSome = true) (h : a ∈ d.ancestors id)
    (metadata : above ∈ ElementKind.metadata) (kindAbove : d.hasKind above a = true) :
    above ∈ kind.holders := by
  obtain ⟨holder, holds⟩ := Option.isSome_iff_exists.mp held
  obtain ⟨chain, inSchema | next⟩ := ElementKind.holdersOfHolder holds
  · subst inSchema
    rw [conv.kindAboveInSchema arena attached own holds h metadata kindAbove, chain]
    exact List.mem_cons_self
  · obtain ⟨parent, parentAbove, holding⟩ := conv.heldBy attached own holds
    have inside := arena.elementAbove attached
      ((arena.memAncestorsChild parentAbove).mpr (.inl rfl))
    rw [chain]
    rcases (arena.memAncestorsChild parentAbove).mp h with same | higher
    · subst same
      rw [hasKindUnique kindAbove holding]
      exact List.mem_cons_self
    · rw [conv.kindAboveInSchema arena inside holding next higher metadata kindAbove,
        (ElementKind.holdersOfHolder next).1]
      exact List.mem_cons_of_mem _ List.mem_cons_self

theorem typeOfProperty (conv : d.Conventional) (arena : d.Arena) {id entityType : NodeId}
    (attached : id ∈ d.elements) (own : d.hasKind .navigationProperty id = true)
    (above : entityType ∈ d.ancestors id) (ownType : d.hasKind .entityType entityType = true) :
    d.parent? id = some entityType := by
  obtain ⟨parent, parentAbove, holding⟩ := conv.heldBy attached own rfl
  rcases (arena.memAncestorsChild parentAbove).mp above with same | higher
  · exact same ▸ parentAbove
  · have inside := arena.elementAbove attached ((arena.memAncestorsChild parentAbove).mpr (.inl rfl))
    cases conv.kindAboveInSchema arena inside holding rfl higher (by decide) ownType

end Conventional

namespace Loses

variable {d d' : Document} {gone : NodeId → Prop}

theorem parentSame (h : d.Loses d' gone) (arena : d.Arena) {id : NodeId}
    (attached : d'.Attached id) : d'.parent? id = d.parent? id := by
  cases attached with
  | root => rw [(h.arena arena).rootParent, h.root, arena.rootParent]
  | child _ above => rw [above, h.parentBefore above]

theorem conventional (h : d.Loses d' gone) (arena : d.Arena) (conv : d.Conventional) :
    d'.Conventional := by
  have inside {id : NodeId} (hid : id ∈ d'.elements) : d'.Attached id :=
    ((h.arena arena).memElements.mp hid).2
  refine ⟨?_, fun id hid own above ha kind metadata => ?_,
    fun kind metadata id hid own holder holds => ?_⟩
  · obtain ⟨placement, listed, uniform⟩ := conv.onePlacement
    refine ⟨placement, listed, fun kind metadata id hid own => ?_⟩
    rw [h.placementSame arena (inside hid)]
    exact uniform kind metadata id (h.elementBefore arena hid) (h.hasKindSame kind ▸ own)
  · rw [h.hasKindSame] at own ⊢
    rw [h.ancestorsSame arena (inside hid)] at ha
    exact conv.schemasOutside id (h.elementBefore arena hid) own above ha kind metadata
  · rw [h.hasKindSame] at own ⊢
    rw [h.parentSame arena (inside hid)]
    exact conv.held kind metadata id (h.elementBefore arena hid) own holder holds

end Loses
end Document
end EdmxPruning
