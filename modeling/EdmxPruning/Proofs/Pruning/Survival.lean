import EdmxPruning.Proofs.Pruning.Passes

/-! What survives the passes in a conventional document. Only five kinds of elements are ever cut,
and they hold none of the sections, types and associations, so these stay unless they are chosen
themselves, and every section yields all of its elements at every stage. -/
namespace EdmxPruning

namespace ElementKind

def upper : List ElementKind := [.schema, .entityContainer, .entityType, .association]

theorem upperHolders {kind : ElementKind} (h : kind ∈ upper) :
    kind = .schema ∨
      (kind.holder?.isSome = true ∧ ∀ above ∈ kind.holders, above ∉ removable) := by
  revert h
  cases kind <;> decide

theorem removableHeld {kind : ElementKind} (h : kind ∈ removable) : kind.holder?.isSome = true := by
  revert h
  cases kind <;> decide

theorem associationHoldsNone {kind : ElementKind} (h : kind ∈ removable) :
    .association ∉ kind.holders := by
  revert h
  cases kind <;> decide

theorem removableMetadata {kind : ElementKind} (h : kind ∈ removable) : kind ∈ metadata := by
  revert h
  cases kind <;> decide

end ElementKind

namespace Document

def Removable (d : Document) (id : NodeId) : Prop :=
  ∃ kind ∈ ElementKind.removable, d.hasKind kind id = true

def MayGo (d : Document) (id : NodeId) : Prop :=
  ∃ kind ∈ ElementKind.removable, d.recognizes kind id = true

theorem mayGoRemovable {d : Document} {id : NodeId} (h : d.MayGo id) : d.Removable id := by
  obtain ⟨kind, listed, seen⟩ := h
  exact ⟨kind, listed, recognizedKind seen⟩

theorem removableKind {d : Document} {id : NodeId} {kind : ElementKind} (own : d.hasKind kind id = true)
    (removable : d.Removable id) : kind ∈ ElementKind.removable := by
  obtain ⟨other, listed, h⟩ := removable
  exact hasKindUnique own h ▸ listed

theorem referenceSame {d d' : Document} {gone : NodeId → Prop} (h : d.Loses d' gone) :
    d'.reference? = d.reference? := by
  funext id name; unfold reference?; rw [h.attributeSame]

section Survival

variable {d m : Document} {gone : NodeId → Prop} (arena : d.Arena) (h : d.Loses m gone)
include arena h

theorem uncutAfter {x : NodeId} (attached : x ∈ d.elements) (safe : ¬ gone x) :
    m.isCut x = false := by
  refine Bool.eq_false_iff.mpr fun cut => ?_
  obtain ⟨element, inside⟩ := arena.memElements.mp attached
  rcases h.lost x cut with old | now | blank
  · rw [attachedUncut arena inside] at old; cases old
  · exact safe now
  · rw [elementNotBlank element] at blank; cases blank

/- An uncut element stays if nothing above it may go. -/
theorem clearStays {x : NodeId} (attached : x ∈ d.elements)
    (clear : ∀ above ∈ d.ancestors x, ¬ gone above) (uncut : m.isCut x = false) :
    x ∈ m.elements := by
  obtain ⟨element, inside⟩ := arena.memElements.mp attached
  refine (h.arena arena).memElements.mpr ⟨h.isElementSame ▸ element, ?_⟩
  refine h.attachedAfter arena inside uncut fun a above => ?_
  exact uncutAfter arena h (arena.elementAbove attached above) (clear a above)

variable (conv : d.Conventional) (only : ∀ id, gone id → d.Removable id)
include conv only

omit h only in
theorem upperClear {kind : ElementKind} (upper : kind ∈ ElementKind.upper) {x : NodeId}
    (attached : x ∈ d.elements) (own : d.hasKind kind x = true) :
    ∀ above ∈ d.ancestors x, ¬ d.Removable above := by
  intro a above removable
  obtain ⟨kindAbove, listed, there⟩ := removable
  have metadata := ElementKind.removableMetadata listed
  rcases ElementKind.upperHolders upper with schema | ⟨held, outside⟩
  · subst schema
    rw [conv.schemasOutside x attached own a above kindAbove metadata] at there
    cases there
  · exact outside kindAbove (conv.kindAbove arena attached own held above metadata there) listed

theorem upperStays {kind : ElementKind} (upper : kind ∈ ElementKind.upper) {x : NodeId}
    (attached : x ∈ d.elements) (own : d.hasKind kind x = true) (uncut : m.isCut x = false) :
    x ∈ m.elements :=
  clearStays arena h attached
    (fun a above lost => upperClear arena conv upper attached own a above (only a lost)) uncut

theorem upperSafe {kind : ElementKind} (upper : kind ∈ ElementKind.upper)
    (safe : kind ∉ ElementKind.removable) {x : NodeId} (attached : x ∈ d.elements)
    (own : d.hasKind kind x = true) : x ∈ m.elements :=
  upperStays arena h conv only upper attached own
    (uncutAfter arena h attached fun lost => safe (removableKind own (only x lost)))

/- Sections that were found before the passes yield at every stage what is there to be found. -/
theorem memScoped {holder kind : ElementKind} (upper : holder ∈ ElementKind.upper)
    (safe : holder ∉ ElementKind.removable) (metadata : holder ∈ ElementKind.metadata)
    (holds : kind.holder? = some holder) {x : NodeId} :
    x ∈ (d.find holder none).flatMap (fun scope => m.find kind (some scope)) ↔
      x ∈ m.elements ∧ m.hasKind kind x = true := by
  have arena' := h.arena arena
  have conv' := h.conventional arena conv
  have kindMetadata := ElementKind.metadataOfHolder holds
  rw [List.mem_flatMap]
  constructor
  · intro given
    obtain ⟨scope, found, inside⟩ := given
    obtain ⟨attached, own⟩ := (conv.memFindAll metadata).mp found
    have there := (arena'.memElements.mp (upperSafe arena h conv only upper safe attached own)).2
    obtain ⟨kindX, above⟩ := (conv'.memFindBelow arena' kindMetadata there).mp inside
    exact ⟨arena'.memElements.mpr ⟨hasKindElement kindX, arena'.attachedBelow there above⟩, kindX⟩
  · intro given
    obtain ⟨attached, kindX⟩ := given
    obtain ⟨scope, parent, own⟩ := conv'.heldBy attached kindX holds
    have above : scope ∈ m.ancestors x := (arena'.memAncestorsChild parent).mpr (.inl rfl)
    have there := arena'.elementAbove attached above
    refine ⟨scope, (conv.memFindAll metadata).mpr ⟨h.elementBefore arena there, ?_⟩, ?_⟩
    · rw [← h.hasKindSame]; exact own
    · exact (conv'.memFindBelow arena' kindMetadata (arena'.memElements.mp there).2).mpr
        ⟨kindX, above⟩

end Survival

theorem sectionsParts {d : Document} {s : Sections} (located : d.sections = .ok s) :
    s.containers = d.find .entityContainer none ∧ s.schemas = d.find .schema none := by
  unfold sections at located
  simp only at located
  split at located
  · cases located
  · split at located
    · cases located
    · cases located; exact ⟨rfl, rfl⟩

theorem sectionsThere {d : Document} : (∃ s, d.sections = .ok s) ↔
    d.find .entityContainer none ≠ [] ∧ d.find .schema none ≠ [] := by
  unfold sections
  cases d.find .entityContainer none <;> cases d.find .schema none <;> simp

theorem memInContainers {d m : Document} {g : NavigationGraph} {kind : ElementKind}
    {gone : NodeId → Prop} (built : d.navigation = .ok g) (arena : d.Arena)
    (conv : d.Conventional) (h : d.Loses m gone) (only : ∀ id, gone id → d.Removable id)
    (holds : kind.holder? = some .entityContainer) {x : NodeId} :
    x ∈ g.sections.inContainers m kind ↔ x ∈ m.elements ∧ m.hasKind kind x = true := by
  unfold Sections.inContainers
  rw [(sectionsParts (navigationParts built).1).1]
  exact memScoped arena h conv only (by decide) (by decide) (by decide) holds

theorem memInSchemas {d m : Document} {g : NavigationGraph} {kind : ElementKind}
    {gone : NodeId → Prop} (built : d.navigation = .ok g) (arena : d.Arena)
    (conv : d.Conventional) (h : d.Loses m gone) (only : ∀ id, gone id → d.Removable id)
    (holds : kind.holder? = some .schema) {x : NodeId} :
    x ∈ g.sections.inSchemas m kind ↔ x ∈ m.elements ∧ m.hasKind kind x = true := by
  unfold Sections.inSchemas
  rw [(sectionsParts (navigationParts built).1).2]
  exact memScoped arena h conv only (by decide) (by decide) (by decide) holds

end Document

namespace Pruning

theorem recognizedScoped {m : Document} {kind : ElementKind} {scopes : List NodeId} {x : NodeId}
    (h : x ∈ scopes.flatMap fun scope => m.find kind (some scope)) : m.recognizes kind x = true := by
  obtain ⟨scope, _, inside⟩ := List.mem_flatMap.mp h
  exact (Document.foundRecognized inside).2

theorem hasKindScoped {m : Document} {kind : ElementKind} {scopes : List NodeId} {x : NodeId}
    (h : x ∈ scopes.flatMap fun scope => m.find kind (some scope)) : m.hasKind kind x = true :=
  Document.recognizedKind (recognizedScoped h)

section Kinds

variable {g : NavigationGraph} {closure : Closure} {d : Document} (arena : d.Arena)
  (built : d.navigation = .ok g)
include arena built

theorem choiceRecognized {kind : ElementKind} {id : NodeId} (h : id ∈ choice g closure d kind) :
    d.recognizes kind id = true := by
  have lose := stagesLose arena g closure
  cases kind with
  | entitySet => exact recognizedScoped (memEntitySets.mp h).1
  | entityType => exact (Document.foundRecognized ((memEntityTypes built).mp h).1).2
  | association =>
    exact lose.toTypes.recognizesBefore arena (recognizedScoped (memAssociations.mp h).1)
  | functionImport =>
    exact lose.toAssociations.recognizesBefore arena (recognizedScoped (memFunctionImports.mp h).1)
  | navigationProperty =>
    obtain ⟨⟨_, _, _, inside⟩, _⟩ := (memNavigationProperties built).mp h
    exact lose.toImports.recognizesBefore arena (Document.foundRecognized inside).2
  | dataServices | schema | entityContainer | associationEnd => cases h

theorem chosenParts {id : NodeId} (chosen : Chosen g closure d id) : ∃ kind ∈ ElementKind.removable,
    d.recognizes kind id = true ∧ id ∈ choice g closure d kind := by
  obtain ⟨kind, listed, h⟩ := chosenIff.mp chosen
  exact ⟨kind, listed, choiceRecognized arena built h, h⟩

theorem chosenMayGo (id : NodeId) (chosen : Chosen g closure d id) : d.MayGo id := by
  obtain ⟨kind, listed, seen, _⟩ := chosenParts arena built chosen
  exact ⟨kind, listed, seen⟩

theorem chosenRemovable (id : NodeId) (chosen : Chosen g closure d id) : d.Removable id :=
  Document.mayGoRemovable (chosenMayGo arena built id chosen)

theorem runLoses (closure : Closure) :
    d.Loses (run g closure d).document fun id => d.isElement id = true :=
  (stagesLose arena g closure).toEnd.weaken fun id chosen => by
    obtain ⟨kind, _, seen⟩ := chosenMayGo arena built id chosen
    exact Document.recognizedElement seen

theorem chosenOfKind {id : NodeId} (chosen : Chosen g closure d id) {kind : ElementKind}
    (own : d.hasKind kind id = true) : id ∈ choice g closure d kind := by
  obtain ⟨other, _, seen, h⟩ := chosenParts arena built chosen
  rwa [Document.hasKindUnique own (Document.recognizedKind seen)]

end Kinds

section Left

variable {d : Document} {g : NavigationGraph} {closure : Closure} (arena : d.Arena)
  (conv : d.Conventional)
include arena conv

theorem unchosen {id : NodeId} {kind holder : ElementKind}
    (there : id ∈ (run g closure d).document.elements) (own : d.hasKind kind id = true)
    (holds : kind.holder? = some holder) : ¬ Chosen g closure d id := by
  intro chosen
  have lose := stagesLose arena g closure
  obtain ⟨parent, above, _⟩ := (lose.toEnd.conventional arena conv).heldBy there
    (lose.toEnd.hasKindSame _ ▸ own) holds
  rw [lose.chosenDetached arena chosen] at above
  cases above

end Left

end Pruning
end EdmxPruning
