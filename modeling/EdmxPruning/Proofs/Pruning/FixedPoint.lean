import EdmxPruning.Proofs.Metadata.Uniform
import EdmxPruning.Proofs.Pruning.Integrity
import EdmxPruning.Proofs.Pruning.Repetition

/-! What a run has written is a fixed point. When it is read once more, the elements that were left
have other numbers and perhaps another default namespace, but navigation leads where it led, nothing
dangles still, and so there is nothing for a second run to remove. -/
namespace EdmxPruning
open Markup

namespace Document.Renumbers

variable {a b : Document} {φ ψ : NodeId → NodeId} (h : Renumbers φ a b)
include h

theorem referenceSame {id : NodeId} (there : id ∈ a.elements) (name : String) :
    b.reference? (φ id) name = a.reference? id name := by
  unfold reference?
  rw [h.attributeSame there]

section Navigation

variable (arenaA : a.Arena) (arenaB : b.Arena) (convA : a.Conventional) (convB : b.Conventional)
include convA convB

/- The elements keep their order, so the first of a name is the first one again. -/
theorem definitionMapped {kind : ElementKind} (metadata : kind ∈ ElementKind.metadata)
    {name : ShortName} {id : NodeId} (first : a.definition? kind name = some id) :
    b.definition? kind name = some (φ id) := by
  have named {x : NodeId} (found : x ∈ a.find kind none) :
      b.reference? (φ x) "Name" = a.reference? x "Name" :=
    h.referenceSame ((convA.memFindAll metadata).mp found).1 "Name"
  obtain ⟨own, before, after, split, others⟩ := List.find?_eq_some_iff_append.mp first
  unfold definition?
  rw [h.findMapped convA convB metadata, List.find?_eq_some_iff_append]
  refine ⟨by rw [named (by simp [split])]; exact own, before.map φ, after.map φ, by simp [split], ?_⟩
  intro x member
  obtain ⟨y, earlier, same⟩ := List.mem_map.mp member
  rw [← same, named (by simp [split, earlier])]
  exact others y earlier

include arenaA arenaB

theorem leads {n m : ShortName} (way : a.Leads n m) : b.Leads n m := by
  obtain ⟨apart, entityType, property, relationship, association, role, firstType, inside, refers,
    first, foundRole, typed⟩ := way
  have thereType := ((convA.memFindAll (by decide)).mp (definitionNamed firstType).1).1
  have there := ((convA.memFindAll (by decide)).mp (definitionNamed first).1).1
  obtain ⟨thereProperty, insideToo⟩ :=
    h.foundBelow convA convB (by decide) arenaA arenaB thereType inside
  obtain ⟨thereRole, foundRoleToo⟩ :=
    h.foundBelow convA convB (by decide) arenaA arenaB there foundRole
  exact ⟨apart, φ entityType, φ property, relationship, φ association, φ role,
    h.definitionMapped convA convB (by decide) firstType, insideToo,
    (h.referenceSame thereProperty _).trans refers,
    h.definitionMapped convA convB (by decide) first, foundRoleToo,
    (h.referenceSame thereRole _).trans typed⟩

omit arenaA arenaB in
theorem navigationMapped {g : NavigationGraph} (built : a.navigation = .ok g) :
    ∃ g', b.navigation = .ok g' := by
  obtain ⟨containers, schemas⟩ := sectionsThere.mp ⟨_, (navigationParts built).1⟩
  have there : ∃ sections, b.sections = .ok sections := by
    rw [sectionsThere, h.findMapped convA convB (by decide), h.findMapped convA convB (by decide)]
    simp [containers, schemas]
  exact navigationOf there.choose_spec

theorem closureSame (back : Renumbers ψ b a) {g g' : NavigationGraph} (built : a.navigation = .ok g)
    (builtToo : b.navigation = .ok g') (names : List ShortName) :
    (g'.closure names).value = (g.closure names).value := by
  refine @NavigationGraph.closureAgrees g g' names (fun _ => True) (fun _ _ => trivial)
    (fun _ _ _ _ => trivial) fun n _ m => ?_
  rw [neighborIffLeads built, neighborIffLeads builtToo]
  exact ⟨back.leads arenaB arenaA convB convA, h.leads arenaA arenaB convA convB⟩

end Navigation

theorem intact (back : Renumbers ψ b a) (arenaA : a.Arena) (arenaB : b.Arena) {kept lost : NameSet}
    (intact : a.Intact kept lost) : b.Intact kept lost := by
  refine ⟨fun id there own name named => ?_, fun id there own name named => ?_,
    fun id there own association above ownAbove name named => ?_,
    fun id there own entityType above namedType name named => ?_,
    fun id there own name named => ?_, intact.goneOutside⟩
  · rw [← back.hasKindSame _ there] at own
    rw [← back.referenceSame there] at named
    exact intact.entitySets _ (back.inside there) own name named
  · rw [← back.hasKindSame _ there] at own
    rw [← back.referenceSame there] at named
    exact intact.entityTypes _ (back.inside there) own name named
  · rw [← back.hasKindSame _ there] at own
    rw [← back.hasKindSame _ (arenaB.elementAbove there above)] at ownAbove
    rw [← back.referenceSame there] at named
    exact intact.ends _ (back.inside there) own _ (back.aboveMapped there arenaB arenaA above)
      ownAbove name named
  · have thereType := arenaB.elementAbove there ((arenaB.memAncestorsChild above).mpr (.inl rfl))
    have parent := back.parents id there
    rw [above] at parent
    rw [← back.hasKindSame _ there] at own
    rw [← back.referenceSame there] at named
    rw [← back.referenceSame thereType] at namedType
    obtain ⟨association, thereAssociation, ownAssociation, same⟩ :=
      intact.properties _ (back.inside there) own _ parent namedType name named
    exact ⟨φ association, h.inside thereAssociation,
      (h.hasKindSame _ thereAssociation).trans ownAssociation,
      (h.referenceSame thereAssociation _).trans same⟩
  · rw [← back.hasKindSame _ there] at own
    rw [← back.attributeSame there] at named
    exact intact.functionImports _ (back.inside there) own name named

end Document.Renumbers

namespace Pruning

section Idle

variable {d : Document} {g : NavigationGraph} {closure : Closure} {lost : NameSet} (arena : d.Arena)
  (conv : d.Conventional) (built : d.navigation = .ok g) (intact : d.Intact closure.entities lost)
include arena conv built intact

theorem runIntactIdle :
    run g closure d = ⟨d, ElementKind.removable.map (Pass.mk · []), ∅⟩ := by
  have nothing {ids : List NodeId} (none : ∀ id, id ∉ ids) : d.removeAll ids = ⟨d, []⟩ := by
    rw [List.eq_nil_iff_forall_not_mem.mpr none]
    rfl
  have inContainers {kind : ElementKind} (holds : kind.holder? = some .entityContainer)
      {id : NodeId} (found : id ∈ g.sections.inContainers d kind) :
      id ∈ d.elements ∧ d.hasKind kind id = true :=
    (Document.memInContainers built arena conv (.refl d fun _ => False) (fun _ => False.elim)
      holds).mp found
  have inSchemas {id : NodeId} : id ∈ g.sections.inSchemas d .association ↔
      id ∈ d.elements ∧ d.hasKind .association id = true :=
    Document.memInSchemas built arena conv (.refl d fun _ => False) (fun _ => False.elim) rfl
  refine runIdle (nothing fun id chosen => ?_) (nothing fun id chosen => ?_)
    (nothing fun id chosen => ?_) ?_ (nothing fun id chosen => ?_)
  · obtain ⟨found, name, refers, outside⟩ := memEntitySets.mp chosen
    obtain ⟨there, own⟩ := inContainers rfl found
    exact outside (intact.entitySets id there own name refers)
  · obtain ⟨found, name, named, outside⟩ := (memEntityTypes built).mp chosen
    obtain ⟨there, own⟩ := (conv.memFindAll (by decide)).mp found
    exact outside (intact.entityTypes id there own name named)
  · obtain ⟨found, role, foundRole, name, typed, outside⟩ := memAssociations.mp chosen
    obtain ⟨there, own⟩ := inSchemas.mp found
    obtain ⟨ownRole, above⟩ := (conv.memFindBelow arena (by decide)
      (arena.memElements.mp there).2).mp foundRole
    have thereRole := arena.candidateElement (Document.scopeThere there)
      (Document.memFind foundRole).1
    exact outside (intact.ends role thereRole ownRole id above own name typed)
  · refine List.eq_nil_iff_forall_not_mem.mpr fun id chosen => ?_
    obtain ⟨_, name, _, gone, _⟩ := memFunctionImports.mp chosen
    cases gone
  · obtain ⟨⟨entityType, foundType, ⟨typeName, named, _⟩, inside⟩, name, refers, dangling⟩ :=
      (memNavigationProperties built).mp chosen
    obtain ⟨thereType, ownType⟩ := (conv.memFindAll (by decide)).mp foundType
    obtain ⟨own, above⟩ := (conv.memFindBelow arena (by decide)
      (arena.memElements.mp thereType).2).mp inside
    have there := arena.candidateElement (Document.scopeThere thereType) (Document.memFind inside).1
    obtain ⟨association, thereAssociation, ownAssociation, same⟩ := intact.properties id there own
      entityType (conv.typeOfProperty arena there own above ownType) (by rw [named]; rfl) name refers
    exact dangling (memAssociationsLeft.mpr
      ⟨association, inSchemas.mpr ⟨thereAssociation, ownAssociation⟩, same⟩)

end Idle

theorem runReached {d : Document} (reached : d.Reached) (g : NavigationGraph) (closure : Closure) :
    (run g closure d).document.Reached :=
  ((((reached.removeAll _).removeAll _).removeAll _).removeAll _).removeAll _

end Pruning

namespace Document

/- What is written of such a document is read with the same tags: names and keys hold no quotes,
values no double quotes, and no text stands at the top level. -/
structure Rereadable (d : Document) : Prop where
  plain : ∀ id ∈ d.elements, ∀ tag ∈ d.tag? id, tag.Plain
  unquoted : ∀ id ∈ d.elements, ∀ tag ∈ d.tag? id, ∀ a ∈ tag.attributes, '"' ∉ a.raw.toList
  noText : ∀ id ∈ d.topLevel, ∀ content ∈ d.content? id, content.isText = false

instance (d : Document) : Decidable d.Rereadable :=
  decidable_of_iff
    ((∀ id ∈ d.elements, ∀ tag ∈ d.tag? id, tag.Plain) ∧
      (∀ id ∈ d.elements, ∀ tag ∈ d.tag? id, ∀ a ∈ tag.attributes, '"' ∉ a.raw.toList) ∧
      ∀ id ∈ d.topLevel, ∀ content ∈ d.content? id, content.isText = false)
    ⟨fun ⟨plain, unquoted, noText⟩ => ⟨plain, unquoted, noText⟩,
      fun ⟨plain, unquoted, noText⟩ => ⟨plain, unquoted, noText⟩⟩

theorem Loses.rereadable {d d' : Document} {gone : NodeId → Prop} (h : d.Loses d' gone)
    (arena : d.Arena) (rereadable : d.Rereadable) : d'.Rereadable where
  plain id there tag tagged :=
    rereadable.plain id (h.elementBefore arena there) tag (h.tagSame ▸ tagged)
  unquoted id there tag tagged :=
    rereadable.unquoted id (h.elementBefore arena there) tag (h.tagSame ▸ tagged)
  noText id listed content found :=
    rereadable.noText id (h.topLevel ▸ listed) content (h.contentSame ▸ found)

theorem tagsWritten {d : Document} (arena : d.Arena) (rereadable : d.Rereadable) :
    d.forest.Each (fun tag => tag.written = tag) fun _ => True := by
  refine forestWithinEach arena (fun id there tag tagged => ?_) (fun _ _ _ => trivial) ?_
  · have raws := rereadable.unquoted id there tag tagged
    have each : tag.attributes.map Attribute.written = tag.attributes := by
      refine (List.map_congr_left fun a member => ?_).trans (List.map_id _)
      simp [Attribute.written, quoteSafeOf (raws a member)]
    simp [Tag.written, each]
  · intro id listed element
    rw [arena.rootOnly id listed element]
    exact .root

theorem readsElements {d : Document} (reached : d.Reached) (rereadable : d.Rereadable) :
    ∃ d' φ ψ, parse d.toXml = .ok d' ∧ d'.toXml = d.toXml ∧ Renumbers φ d d' ∧
      Renumbers ψ d' d := by
  have arena := reached.arena
  obtain ⟨d', parsed, forest, alike⟩ := readsWritten reached rereadable.plain rereadable.noText
  have arena' := (Reached.parsed parsed).arena
  have bare : d'.forest.bare = d.forest.bare := by
    rw [forest, Forest.writtenBare (tagsWritten arena rereadable)]
  obtain ⟨φ, there⟩ := renumbered arena arena' bare
  obtain ⟨ψ, back⟩ := renumbered arena' arena bare.symm
  exact ⟨d', φ, ψ, parsed, alike, there, back⟩

theorem intactFixed {d : Document} (reached : d.Reached) (uniform : d.Uniform)
    (rereadable : d.Rereadable) {g : NavigationGraph} (built : d.navigation = .ok g)
    {requested : List ShortName} {lost : NameSet}
    (intact : d.Intact (g.closure requested).value.entities lost) :
    ∃ d' again, parse d.toXml = .ok d' ∧ d'.prune requested = .ok again ∧
      again.value = ⟨d', (g.closure requested).value, {}⟩ ∧ d'.toXml = d.toXml := by
  have arena := reached.arena
  have conv := uniform.conventional
  obtain ⟨d', φ, ψ, parsed, alike, there, back⟩ := readsElements reached rereadable
  have reached' : d'.Reached := .parsed parsed
  have arena' := reached'.arena
  have conv' := (there.uniform reached reached' uniform).conventional
  obtain ⟨g', built'⟩ := there.navigationMapped conv conv' built
  obtain ⟨again, ok⟩ := pruneOf built' requested
  obtain ⟨g', built', closed, left, report⟩ := pruneParts ok
  have same := there.closureSame arena arena' conv conv' back built built' requested
  rw [← same] at intact
  have idle := Pruning.runIntactIdle arena' conv' built' (there.intact back arena arena' intact)
  rw [closed, idle] at left report
  refine ⟨d', again, parsed, ok, ?_, alike⟩
  have document : again.value.document = d' := left
  rw [← same, ← closed, ← document]
  exact congrArg (Pruned.mk _ _) report

end Document

theorem outputIsFixed {d : Document} (reached : d.Reached) (uniform : d.Uniform)
    (rereadable : d.Rereadable) {requested : List ShortName} {pruned : Logged Pruned}
    (ok : d.prune requested = .ok pruned) :
    ∃ d' again, Document.parse pruned.value.document.toXml = .ok d' ∧
      d'.prune requested = .ok again ∧ again.value = ⟨d', pruned.value.closure, {}⟩ ∧
      again.value.document.toXml = pruned.value.document.toXml := by
  obtain ⟨g, built, closed, left, _⟩ := Document.pruneParts ok
  have arena := reached.arena
  have conv := uniform.conventional
  have tidy := conv.tidy arena
  obtain ⟨second, okSecond⟩ := tidy.pruneAgain arena ok requested
  obtain ⟨later, builtLeft, _⟩ := Document.pruneParts okSecond
  rw [left, closed] at builtLeft
  have lose := (Pruning.stagesLose arena g (g.closure requested).value).toEnd
  have same : (later.closure requested).value = (g.closure requested).value :=
    Pruning.closureLeft arena tidy built builtLeft fun n asked =>
      NavigationGraph.memClosure.mpr ⟨n, asked, .refl⟩
  have intact := Pruning.runIntact arena conv built (g.closure requested).value
  rw [left, closed, ← same]
  rw [← same] at builtLeft intact lose
  obtain ⟨d', again, parsed, okAgain, value, alike⟩ := Document.intactFixed
    (Pruning.runReached reached g _) (lose.uniform arena uniform) (lose.rereadable arena rereadable)
    builtLeft intact
  refine ⟨d', again, parsed, okAgain, value, ?_⟩
  rw [value]
  exact alike

def losesDefault : String :=
  "<E><DataServices><p:Schema xmlns:p=\"u\"><p:EntityContainer>x<p:EntitySet xmlns=\"u\" " ++
  "EntityType=\"B\"/>y</p:EntityContainer><p:EntityType Name=\"A\"/></p:Schema></DataServices></E>"

theorem fixedWithoutDefault : ∃ d pruned d' again, Document.parse losesDefault = .ok d ∧
    d.prune [⟨"A"⟩] = .ok pruned ∧ pruned.value.report.entitySets = 1 ∧
    Document.parse pruned.value.document.toXml = .ok d' ∧
    d.defaultNamespace = "u" ∧ d'.defaultNamespace = Document.metadataNamespace ∧
    d'.prune [⟨"A"⟩] = .ok again ∧ again.value = ⟨d', pruned.value.closure, {}⟩ := by
  have chars : losesDefault.toList = _ :=
    Document.charsAppend (Document.charsOf rfl) (Document.charsOf rfl)
  obtain ⟨d, read, facts⟩ := Document.okWith (x := Document.parse losesDefault)
    (p := fun d => decide (d.Uniform ∧ d.Rereadable ∧ d.defaultNamespace = "u") &&
      (d.prune [⟨"A"⟩]).toOption.any fun pruned : Logged Pruned =>
        decide (pruned.value.report.entitySets = 1) &&
          (Document.parse pruned.value.document.toXml).toOption.any fun d' =>
            d'.defaultNamespace == Document.metadataNamespace)
    (by rw [Document.parseChars chars]; decide +kernel)
  obtain ⟨shape, runs⟩ := Bool.and_eq_true_iff.mp facts
  obtain ⟨uniform, rereadable, default⟩ := of_decide_eq_true shape
  obtain ⟨pruned, ok, more⟩ := Document.okWith runs
  obtain ⟨removed, reads⟩ := Bool.and_eq_true_iff.mp more
  obtain ⟨d', again, parsed, okAgain, value, _⟩ :=
    outputIsFixed (.parsed read) uniform rereadable ok
  obtain ⟨_, parsedToo, other⟩ := Document.okWith reads
  cases parsed.symm.trans parsedToo
  exact ⟨d, pruned, d', again, read, ok, of_decide_eq_true removed, parsed, default,
    by simpa using other, okAgain, value⟩

end EdmxPruning
