import EdmxPruning.Metadata.Search
import EdmxPruning.Proofs.Document.Remainder

/-! What searches can see. An element that no placement accepts is never found, and of the others a
search finds those of one placement only. Where all of them share it, the search finds them all, and
as the document shrinks it goes on to find what is left of them. -/
namespace EdmxPruning

namespace ElementKind

theorem foundByName (kind : ElementKind) :
    ElementKind.all.find? (·.localName = kind.localName) = some kind := by
  cases kind <;> decide

theorem localNameInjective {a b : ElementKind} (same : a.localName = b.localName) : a = b := by
  have found := foundByName a
  rw [same] at found
  exact Option.some.inj (found.symm.trans (foundByName b))

end ElementKind

namespace Document

def placement? (d : Document) (id : NodeId) : Option Placement :=
  Placement.ordered.find? (d.isPlaced id)

def recognizes (d : Document) (kind : ElementKind) (id : NodeId) : Bool :=
  d.hasKind kind id && (d.placement? id).isSome

def PlacedAlike (d : Document) (kind : ElementKind) (scope : Option NodeId) : Prop :=
  ∃ placement ∈ Placement.ordered, ∀ id ∈ d.candidates scope, d.hasKind kind id = true →
    ∀ own ∈ d.placement? id, own = placement

instance (d : Document) (kind : ElementKind) (scope : Option NodeId) :
    Decidable (d.PlacedAlike kind scope) := by
  unfold PlacedAlike
  infer_instance

theorem hasKindUnique {d : Document} {a b : ElementKind} {id : NodeId}
    (first : d.hasKind a id = true) (second : d.hasKind b id = true) : a = b := by
  unfold hasKind at first second
  cases tagged : d.tag? id with
  | none => rw [tagged] at first; cases first
  | some tag =>
    rw [tagged] at first second
    have ha : tag.localName = a.localName := by simpa using first
    have hb : tag.localName = b.localName := by simpa using second
    exact ElementKind.localNameInjective (ha.symm.trans hb)

theorem hasKindElement {d : Document} {kind : ElementKind} {id : NodeId}
    (h : d.hasKind kind id = true) : d.isElement id = true := by
  unfold hasKind at h
  unfold isElement
  cases tagged : d.tag? id with
  | none => rw [tagged] at h; cases h
  | some tag => rfl

theorem recognizesParts {d : Document} {kind : ElementKind} {id : NodeId} :
    d.recognizes kind id = true ↔
      d.hasKind kind id = true ∧ ∃ placement, d.placement? id = some placement := by
  unfold recognizes
  rw [Bool.and_eq_true, Option.isSome_iff_exists]

theorem recognizedKind {d : Document} {kind : ElementKind} {id : NodeId}
    (h : d.recognizes kind id = true) : d.hasKind kind id = true := (recognizesParts.mp h).1

theorem recognizedElement {d : Document} {kind : ElementKind} {id : NodeId}
    (h : d.recognizes kind id = true) : d.isElement id = true := hasKindElement (recognizedKind h)

theorem acceptedRecognized {d : Document} {placement : Placement} {kind : ElementKind} {id : NodeId}
    (h : d.accepts placement kind id = true) : d.recognizes kind id = true := by
  obtain ⟨own, placed⟩ := Bool.and_eq_true_iff.mp h
  refine recognizesParts.mpr ⟨own, Option.isSome_iff_exists.mp ?_⟩
  exact List.find?_isSome.mpr ⟨placement, by cases placement <;> decide, placed⟩

theorem foundRecognized {d : Document} {kind : ElementKind} {scope : Option NodeId} {id : NodeId}
    (h : id ∈ d.find kind scope) : id ∈ d.candidates scope ∧ d.recognizes kind id = true := by
  unfold find at h
  cases found : Placement.ordered.findSome? fun placement =>
      if (d.matching placement kind (d.candidates scope)).isEmpty then none
      else some (d.matching placement kind (d.candidates scope)) with
  | none => simp only [found, Option.getD_none] at h; cases h
  | some ids =>
    simp only [found, Option.getD_some] at h
    obtain ⟨placement, _, chosen⟩ := List.exists_of_findSome?_eq_some found
    split at chosen
    · cases chosen
    · cases chosen
      obtain ⟨inside, accepted⟩ := List.mem_filter.mp h
      exact ⟨inside, acceptedRecognized accepted⟩

theorem memFind {d : Document} {kind : ElementKind} {scope : Option NodeId} {id : NodeId}
    (h : id ∈ d.find kind scope) : id ∈ d.candidates scope ∧ d.hasKind kind id = true :=
  (foundRecognized h).imp_right recognizedKind

/- The places before the one they share accept none of them, and that one accepts all. -/
theorem findAlike {d : Document} {kind : ElementKind} {scope : Option NodeId}
    (alike : d.PlacedAlike kind scope) :
    d.find kind scope = (d.candidates scope).filter (d.recognizes kind) := by
  obtain ⟨placement, _, same⟩ := alike
  generalize all : (d.candidates scope).filter (d.recognizes kind) = found
  have placed {other : Placement} {id : NodeId} (h : id ∈ d.matching other kind (d.candidates scope)) :
      id ∈ found ∧ d.isPlaced id other = true ∧ d.placement? id = some placement := by
    obtain ⟨inside, accepted⟩ := List.mem_filter.mp h
    have seen := acceptedRecognized accepted
    obtain ⟨own, first, chosen⟩ := recognizesParts.mp seen
    exact ⟨all ▸ List.mem_filter.mpr ⟨inside, seen⟩, (Bool.and_eq_true_iff.mp accepted).2,
      same id inside own first chosen ▸ chosen⟩
  have here : d.matching placement kind (d.candidates scope) = found := by
    rw [← all]
    refine List.filter_congr fun id inside => Bool.eq_iff_iff.mpr ⟨acceptedRecognized, fun seen => ?_⟩
    obtain ⟨own, first, chosen⟩ := recognizesParts.mp seen
    rw [same id inside own first chosen] at chosen
    exact Bool.and_eq_true_iff.mpr ⟨own, List.find?_some chosen⟩
  unfold find
  by_cases empty : found = []
  · have none (other : Placement) : d.matching other kind (d.candidates scope) = [] :=
      List.eq_nil_iff_forall_not_mem.mpr fun id h => by
        have := (placed h).1
        rw [empty] at this
        cases this
    simp [none, empty, Placement.ordered]
  · cases placement with
    | inDefaultNamespace => simp [Placement.ordered, here, empty]
    | inNoNamespace =>
      have none : d.matching .inDefaultNamespace kind (d.candidates scope) = [] :=
        List.eq_nil_iff_forall_not_mem.mpr fun id h => by
          obtain ⟨_, yes, first⟩ := placed h
          simp [placement?, Placement.ordered, yes] at first
      simp [Placement.ordered, List.findSome?, here, none, empty]
    | belowDataServices =>
      have none : d.matching .inDefaultNamespace kind (d.candidates scope) = [] :=
        List.eq_nil_iff_forall_not_mem.mpr fun id h => by
          obtain ⟨_, yes, first⟩ := placed h
          simp [placement?, Placement.ordered, yes] at first
      have noneEither : d.matching .inNoNamespace kind (d.candidates scope) = [] :=
        List.eq_nil_iff_forall_not_mem.mpr fun id h => by
          obtain ⟨_, yes, first⟩ := placed h
          simp only [placement?, Placement.ordered, List.find?, yes] at first
          split at first <;> cases first
      simp [Placement.ordered, List.findSome?, here, none, noneEither, empty]

theorem memFindAlike {d : Document} {kind : ElementKind} {scope : Option NodeId} {id : NodeId}
    (alike : d.PlacedAlike kind scope) :
    id ∈ d.find kind scope ↔ id ∈ d.candidates scope ∧ d.recognizes kind id = true := by
  rw [findAlike alike, List.mem_filter]

theorem noScope {d : Document} : ∀ s ∈ (none : Option NodeId), s ∈ d.elements :=
  fun _ nothing => by cases nothing

theorem scopeThere {d : Document} {scope : NodeId} (there : scope ∈ d.elements) :
    ∀ s ∈ some scope, s ∈ d.elements :=
  fun _ same => Option.some.inj same ▸ there

theorem Arena.candidateElement {d : Document} (arena : d.Arena) {scope : Option NodeId} {id : NodeId}
    (there : ∀ s ∈ scope, s ∈ d.elements) (inside : id ∈ d.candidates scope) : id ∈ d.elements := by
  cases scope with
  | none => exact inside
  | some s =>
    obtain ⟨element, above⟩ := arena.memDescendants.mp inside
    exact arena.memElements.mpr
      ⟨element, arena.attachedBelow (arena.memElements.mp (there s rfl)).2 above⟩

theorem Arena.alikeWithin {d : Document} (arena : d.Arena) {kind : ElementKind} {scope : NodeId}
    (alike : d.PlacedAlike kind none) (there : scope ∈ d.elements) :
    d.PlacedAlike kind (some scope) := by
  obtain ⟨placement, listed, same⟩ := alike
  exact ⟨placement, listed, fun id inside =>
    same id (arena.candidateElement (scopeThere there) inside)⟩

namespace Loses

variable {d d' : Document} {gone : NodeId → Prop} {kind : ElementKind} {scope : Option NodeId}

theorem hasKindSame (h : d.Loses d' gone) (kind : ElementKind) :
    d'.hasKind kind = d.hasKind kind := by
  funext id; unfold hasKind; rw [h.tagSame]

theorem isPlacedOf (h : d.Loses d' gone) {id : NodeId} (above : d'.ancestors id = d.ancestors id) :
    d'.isPlaced id = d.isPlaced id := by
  funext placement
  cases placement with
  | inDefaultNamespace => simp only [isPlaced, h.namespaceSame, h.defaultNamespace]
  | inNoNamespace => simp only [isPlaced, h.namespaceSame]
  | belowDataServices => simp only [isPlaced, above, h.hasKindSame]

theorem isPlacedSame (h : d.Loses d' gone) (arena : d.Arena) {id : NodeId}
    (attached : d'.Attached id) : d'.isPlaced id = d.isPlaced id :=
  h.isPlacedOf (h.ancestorsSame arena attached)

theorem placementSame (h : d.Loses d' gone) (arena : d.Arena) {id : NodeId}
    (attached : d'.Attached id) : d'.placement? id = d.placement? id := by
  unfold placement?
  rw [h.isPlacedSame arena attached]

theorem recognizesSame (h : d.Loses d' gone) (arena : d.Arena) {id : NodeId}
    (attached : d'.Attached id) : d'.recognizes kind id = d.recognizes kind id := by
  unfold recognizes
  rw [h.hasKindSame, h.placementSame arena attached]

/- A removal makes nothing visible, also not in what it takes out. -/
theorem recognizesBefore (h : d.Loses d' gone) (arena : d.Arena) {id : NodeId}
    (seen : d'.recognizes kind id = true) : d.recognizes kind id = true := by
  obtain ⟨own, placement, found⟩ := recognizesParts.mp seen
  have placed : d.isPlaced id placement = true := by
    have placedThen := List.find?_some found
    cases placement with
    | inDefaultNamespace =>
      simpa only [isPlaced, h.namespaceSame, h.defaultNamespace] using placedThen
    | inNoNamespace => simpa only [isPlaced, h.namespaceSame] using placedThen
    | belowDataServices =>
      obtain ⟨above, higher, services⟩ := List.any_eq_true.mp placedThen
      rw [h.hasKindSame] at services
      exact List.any_eq_true.mpr ⟨above, h.ancestorsBefore arena higher, services⟩
  exact acceptedRecognized (Bool.and_eq_true_iff.mpr ⟨h.hasKindSame kind ▸ own, placed⟩)

theorem acceptsSame (h : d.Loses d' gone) (arena : d.Arena) {id : NodeId}
    (attached : d'.Attached id) (placement : Placement) :
    d'.accepts placement kind id = d.accepts placement kind id := by
  unfold accepts
  rw [h.hasKindSame, h.isPlacedSame arena attached]

variable (h : d.Loses d' gone) (arena : d.Arena) (there : ∀ s ∈ scope, s ∈ d'.elements)
include h arena there

theorem candidatesLeft :
    d'.candidates scope = (d.candidates scope).filter (fun id => decide (id ∈ d'.elements)) := by
  cases scope with
  | none => exact h.elementsLeft arena
  | some s =>
    have attached := ((h.arena arena).memElements.mp (there s rfl)).2
    show d'.descendants s = (d.descendants s).filter _
    unfold descendants
    rw [← h.descendantsLeft arena attached (Nat.le_add_left _ _), h.nodes]

theorem memCandidatesLeft {id : NodeId} :
    id ∈ d'.candidates scope ↔ id ∈ d.candidates scope ∧ id ∈ d'.elements := by
  rw [h.candidatesLeft arena there, List.mem_filter, decide_eq_true_eq]

theorem alikeLeft (alike : d.PlacedAlike kind scope) : d'.PlacedAlike kind scope := by
  obtain ⟨placement, listed, same⟩ := alike
  refine ⟨placement, listed, fun id inside own first found => ?_⟩
  obtain ⟨before, left⟩ := (h.memCandidatesLeft arena there).mp inside
  rw [h.placementSame arena ((h.arena arena).memElements.mp left).2] at found
  exact same id before (h.hasKindSame kind ▸ own) first found

theorem findNarrowed (alike : d.PlacedAlike kind scope) :
    d'.find kind scope = (d.find kind scope).filter (fun id => decide (id ∈ d'.elements)) := by
  rw [findAlike alike, findAlike (h.alikeLeft arena there alike), h.candidatesLeft arena there,
    List.filter_filter, List.filter_filter]
  refine List.filter_congr fun id _ => ?_
  by_cases left : id ∈ d'.elements
  · rw [h.recognizesSame arena ((h.arena arena).memElements.mp left).2, Bool.and_comm]
  · simp [left]

theorem memFindNarrowed (alike : d.PlacedAlike kind scope) {id : NodeId} :
    id ∈ d'.find kind scope ↔ id ∈ d.find kind scope ∧ id ∈ d'.elements := by
  rw [h.findNarrowed arena there alike, List.mem_filter, decide_eq_true_eq]

theorem findSame (stays : ∀ id ∈ d.candidates scope, d.recognizes kind id = true → id ∈ d'.elements) :
    d'.find kind scope = d.find kind scope := by
  have same (placement : Placement) : d'.matching placement kind (d'.candidates scope) =
      d.matching placement kind (d.candidates scope) := by
    unfold matching
    rw [h.candidatesLeft arena there, List.filter_filter]
    refine List.filter_congr fun id inside => ?_
    by_cases left : id ∈ d'.elements
    · rw [h.acceptsSame arena ((h.arena arena).memElements.mp left).2, decide_eq_true left,
        Bool.and_true]
    · have unseen : d.accepts placement kind id = false :=
        Bool.eq_false_iff.mpr fun accepted => left (stays id inside (acceptedRecognized accepted))
      rw [unseen, decide_eq_false left, Bool.and_false]
  unfold find
  simp only [same]

end Loses
end Document
end EdmxPruning
