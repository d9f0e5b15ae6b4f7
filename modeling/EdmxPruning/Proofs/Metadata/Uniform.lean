import EdmxPruning.Proofs.Document.Renumbering
import EdmxPruning.Proofs.Metadata.Conventional

/-! Uniform documents: all metadata is in one namespace, or all in none, and below a `DataServices`
element. Whatever namespace is the default they are conventional, so they stay so when removals take
the declaration of the default with them and the rest is read once more. -/
namespace EdmxPruning
namespace Document

def isMetadata (d : Document) (id : NodeId) : Bool := ElementKind.metadata.any (d.hasKind · id)

structure Uniform (d : Document) : Prop where
  oneNamespace : ∀ id ∈ d.elements, ∀ other ∈ d.elements,
    d.isMetadata id = true → d.isMetadata other = true → d.namespace? id = d.namespace? other
  inServices : ∀ id ∈ d.elements, d.isMetadata id = true →
    (d.ancestors id).any (d.hasKind .dataServices) = true
  schemasOutside : ∀ id ∈ d.elements, d.hasKind .schema id = true →
    ∀ above ∈ d.ancestors id, d.isMetadata above = false
  held : ∀ kind ∈ ElementKind.metadata, ∀ id ∈ d.elements, d.hasKind kind id = true →
    ∀ holder ∈ kind.holder?, (d.parent? id).any (d.hasKind holder) = true

instance (d : Document) : Decidable d.Uniform :=
  decidable_of_iff
    ((∀ id ∈ d.elements, ∀ other ∈ d.elements,
        d.isMetadata id = true → d.isMetadata other = true → d.namespace? id = d.namespace? other) ∧
      (∀ id ∈ d.elements, d.isMetadata id = true →
        (d.ancestors id).any (d.hasKind .dataServices) = true) ∧
      (∀ id ∈ d.elements, d.hasKind .schema id = true →
        ∀ above ∈ d.ancestors id, d.isMetadata above = false) ∧
      ∀ kind ∈ ElementKind.metadata, ∀ id ∈ d.elements, d.hasKind kind id = true →
        ∀ holder ∈ kind.holder?, (d.parent? id).any (d.hasKind holder) = true)
    ⟨fun ⟨one, services, outside, held⟩ => ⟨one, services, outside, held⟩,
      fun ⟨one, services, outside, held⟩ => ⟨one, services, outside, held⟩⟩

theorem metadataOfKind {d : Document} {kind : ElementKind} (listed : kind ∈ ElementKind.metadata)
    {id : NodeId} (own : d.hasKind kind id = true) : d.isMetadata id = true :=
  List.any_eq_true.mpr ⟨kind, listed, own⟩

/- Every placement accepts all of the metadata or nothing of it, and the last one accepts all. -/
theorem Uniform.conventional {d : Document} (uniform : d.Uniform) : d.Conventional where
  onePlacement := by
    by_cases some : ∃ id ∈ d.elements, d.isMetadata id = true
    · obtain ⟨id, there, own⟩ := some
      have alike {other : NodeId} (thereToo : other ∈ d.elements) (ownToo : d.isMetadata other = true) :
          d.isPlaced other = d.isPlaced id := by
        funext placement
        have same := uniform.oneNamespace other thereToo id there ownToo own
        cases placement with
        | inDefaultNamespace => simp only [isPlaced, same]
        | inNoNamespace => simp only [isPlaced, same]
        | belowDataServices =>
          exact (uniform.inServices other thereToo ownToo).trans (uniform.inServices id there own).symm
      have accepted : (d.placement? id).isSome = true :=
        List.find?_isSome.mpr ⟨.belowDataServices, by decide, uniform.inServices id there own⟩
      obtain ⟨placement, found⟩ := Option.isSome_iff_exists.mp accepted
      refine ⟨placement, List.mem_of_find?_eq_some found, fun kind listed other thereToo ownToo => ?_⟩
      rw [placement?, alike thereToo (metadataOfKind listed ownToo)]
      exact found
    · exact ⟨.belowDataServices, by decide, fun kind listed id there own =>
        absurd ⟨id, there, metadataOfKind listed own⟩ some⟩
  schemasOutside id there own above higher kind listed := by
    have none := uniform.schemasOutside id there own above higher
    exact Bool.eq_false_iff.mpr fun ownAbove =>
      Bool.eq_false_iff.mp none (metadataOfKind listed ownAbove)
  held := uniform.held

theorem Loses.uniform {d d' : Document} {gone : NodeId → Prop} (h : d.Loses d' gone)
    (arena : d.Arena) (uniform : d.Uniform) : d'.Uniform := by
  have before {id : NodeId} (there : id ∈ d'.elements) : id ∈ d.elements :=
    h.elementBefore arena there
  have above {id : NodeId} (there : id ∈ d'.elements) : d'.ancestors id = d.ancestors id :=
    h.ancestorsSame arena ((h.arena arena).memElements.mp there).2
  have metadata : d'.isMetadata = d.isMetadata := by
    funext id
    simp only [isMetadata, h.hasKindSame]
  refine ⟨fun id there other thereToo own ownToo => ?_, fun id there own => ?_,
    fun id there own x higher => ?_, (h.conventional arena uniform.conventional).held⟩
  · rw [metadata] at own ownToo
    rw [h.namespaceSame]
    exact uniform.oneNamespace id (before there) other (before thereToo) own ownToo
  · rw [metadata] at own
    rw [above there, h.hasKindSame]
    exact uniform.inServices id (before there) own
  · rw [h.hasKindSame] at own
    rw [above there] at higher
    rw [metadata]
    exact uniform.schemasOutside id (before there) own x higher

namespace Renumbers

variable {a b : Document} {φ : NodeId → NodeId} (h : Renumbers φ a b)
include h

theorem before {other : NodeId} (there : other ∈ b.elements) : ∃ id ∈ a.elements, φ id = other :=
  List.mem_map.mp (h.elements ▸ there)

theorem hasKindSame (kind : ElementKind) {id : NodeId} (there : id ∈ a.elements) :
    b.hasKind kind (φ id) = a.hasKind kind id := by
  unfold hasKind
  rw [h.tags id there]

theorem isMetadataSame {id : NodeId} (there : id ∈ a.elements) :
    b.isMetadata (φ id) = a.isMetadata id := by
  unfold isMetadata
  simp only [h.hasKindSame _ there]

theorem uniform (reachedA : a.Reached) (reachedB : b.Reached) (uniform : a.Uniform) :
    b.Uniform := by
  have arenaA := reachedA.arena
  have above {id : NodeId} (there : id ∈ a.elements) : b.ancestors (φ id) = (a.ancestors id).map φ :=
    h.ancestorsMapped there arenaA reachedB.arena
  refine ⟨fun id' there' other' thereToo' own ownToo => ?_, fun id' there' own => ?_,
    fun id' there' own x' higher' => ?_, fun kind listed id' there' own holder holds => ?_⟩
  · obtain ⟨id, there, same⟩ := h.before there'
    obtain ⟨other, thereToo, sameToo⟩ := h.before thereToo'
    subst same sameToo
    rw [h.isMetadataSame there] at own
    rw [h.isMetadataSame thereToo] at ownToo
    rw [h.namespaceSame there reachedA reachedB, h.namespaceSame thereToo reachedA reachedB]
    exact uniform.oneNamespace id there other thereToo own ownToo
  · obtain ⟨id, there, same⟩ := h.before there'
    subst same
    rw [h.isMetadataSame there] at own
    obtain ⟨x, higher, services⟩ := List.any_eq_true.mp (uniform.inServices id there own)
    rw [above there]
    refine List.any_eq_true.mpr ⟨φ x, List.mem_map_of_mem higher, ?_⟩
    rw [h.hasKindSame _ (arenaA.elementAbove there higher)]
    exact services
  · obtain ⟨id, there, same⟩ := h.before there'
    subst same
    rw [h.hasKindSame _ there] at own
    rw [above there] at higher'
    obtain ⟨x, higher, sameX⟩ := List.mem_map.mp higher'
    subst sameX
    rw [h.isMetadataSame (arenaA.elementAbove there higher)]
    exact uniform.schemasOutside id there own x higher
  · obtain ⟨id, there, same⟩ := h.before there'
    subst same
    rw [h.hasKindSame _ there] at own
    obtain ⟨parent, own', holding⟩ := uniform.conventional.heldBy there own holds
    have thereParent := arenaA.elementAbove there ((arenaA.memAncestorsChild own').mpr (.inl rfl))
    rw [h.parents id there, own', Option.map_some, Option.any_some, h.hasKindSame _ thereParent]
    exact holding

section Searches

variable (convA : a.Conventional) (convB : b.Conventional) {kind : ElementKind}
  (metadata : kind ∈ ElementKind.metadata)
include convA convB metadata

theorem findMapped : b.find kind none = (a.find kind none).map φ := by
  rw [convA.findAll metadata, convB.findAll metadata, h.elements, List.filter_map]
  exact congrArg (List.map φ) (List.filter_congr fun id there => h.hasKindSame kind there)

theorem foundBelow (arenaA : a.Arena) (arenaB : b.Arena) {scope id : NodeId}
    (there : scope ∈ a.elements) (found : id ∈ a.find kind (some scope)) :
    id ∈ a.elements ∧ φ id ∈ b.find kind (some (φ scope)) := by
  have attached := (arenaA.memElements.mp there).2
  have attachedToo := (arenaB.memElements.mp (h.inside there)).2
  have inside := arenaA.candidateElement (scopeThere there) (memFind found).1
  obtain ⟨own, above⟩ := (convA.memFindBelow arenaA metadata attached).mp found
  exact ⟨inside, (convB.memFindBelow arenaB metadata attachedToo).mpr
    ⟨(h.hasKindSame kind inside).trans own, h.aboveMapped inside arenaA arenaB above⟩⟩

end Searches
end Renumbers
end Document
end EdmxPruning
