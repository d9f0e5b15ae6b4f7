import EdmxPruning.Proofs.Navigation.Grouping
import EdmxPruning.Proofs.Pruning.Survival

/-! Searches in the sections and searches in the whole document. Where the sections of a kind are apart
and hold all there is to be found, what they yield one after the other is what the whole document yields,
and it is so as long as no removal takes a section along. -/
namespace EdmxPruning

namespace ElementKind

def sections : List ElementKind := [.schema, .entityContainer]

def inSchemas : List ElementKind := [.entityType, .association]

def inContainers : List ElementKind := [.entitySet, .functionImport]

end ElementKind

/- Every kind may be placed in a way of its own. Elements that no placement accepts are never found, so
they may stand anywhere. -/
structure Document.Sectioned (d : Document) : Prop where
  placed : ∀ kind ∈ ElementKind.sections ++ ElementKind.inSchemas ++ ElementKind.inContainers,
    d.PlacedAlike kind none
  apart : ∀ kind ∈ ElementKind.sections, ∀ id ∈ d.elements, d.recognizes kind id = true →
    ∀ above ∈ d.ancestors id, d.recognizes kind above = false
  inSchemas : ∀ kind ∈ ElementKind.inSchemas, ∀ id ∈ d.elements, d.recognizes kind id = true →
    ∃ above ∈ d.ancestors id, d.recognizes .schema above = true
  inContainers : ∀ kind ∈ ElementKind.inContainers, ∀ id ∈ d.elements, d.recognizes kind id = true →
    ∃ above ∈ d.ancestors id, d.recognizes .entityContainer above = true

instance (d : Document) : Decidable d.Sectioned :=
  decidable_of_iff
    ((∀ kind ∈ ElementKind.sections ++ ElementKind.inSchemas ++ ElementKind.inContainers,
        d.PlacedAlike kind none) ∧
      (∀ kind ∈ ElementKind.sections, ∀ id ∈ d.elements, d.recognizes kind id = true →
        ∀ above ∈ d.ancestors id, d.recognizes kind above = false) ∧
      (∀ kind ∈ ElementKind.inSchemas, ∀ id ∈ d.elements, d.recognizes kind id = true →
        ∃ above ∈ d.ancestors id, d.recognizes .schema above = true) ∧
      ∀ kind ∈ ElementKind.inContainers, ∀ id ∈ d.elements, d.recognizes kind id = true →
        ∃ above ∈ d.ancestors id, d.recognizes .entityContainer above = true)
    ⟨fun ⟨placed, apart, inSchemas, inContainers⟩ => ⟨placed, apart, inSchemas, inContainers⟩,
      fun ⟨placed, apart, inSchemas, inContainers⟩ => ⟨placed, apart, inSchemas, inContainers⟩⟩

structure Sections.FindAll (s : Sections) (d : Document) : Prop where
  inSchemas : ∀ kind ∈ ElementKind.inSchemas,
    s.inSchemas d kind = d.find kind none ∧ (s.inSchemas d kind).Nodup
  inContainers : ∀ kind ∈ ElementKind.inContainers,
    s.inContainers d kind = d.find kind none ∧ (s.inContainers d kind).Nodup

namespace Document

section Scopes

variable {d left : Document} {gone : NodeId → Prop} {holder kind : ElementKind} (reached : d.Reached)
  (later : left.Reached) (lose : d.Loses left gone) (placed : d.PlacedAlike holder none)
  (stays : ∀ scope ∈ d.find holder none, scope ∈ left.elements)
include reached later lose placed stays

theorem scopesAscending (apart : ∀ id ∈ d.elements, d.recognizes holder id = true →
      ∀ above ∈ d.ancestors id, d.recognizes holder above = false) :
    ((d.find holder none).flatMap fun scope => left.find kind (some scope)).Pairwise
      fun a b : Nat => a < b := by
  have arena := reached.arena
  refine List.pairwise_flatMap.mpr ⟨fun scope _ => later.findAscending kind (some scope), ?_⟩
  refine (reached.findAscending holder none).imp_of_mem fun {a b} found foundToo less => ?_
  have there := stays a found
  have thereToo := stays b foundToo
  obtain ⟨_, seen⟩ := (memFindAlike placed).mp found
  obtain ⟨inside, seenToo⟩ := (memFindAlike placed).mp foundToo
  have clear : a ∉ left.ancestors b := by
    rw [lose.ancestorsSame arena (later.arena.memElements.mp thereToo).2]
    intro above
    rw [apart b inside seenToo a above] at seen
    cases seen
  have before := later.partsInOrder there thereToo less clear
  exact fun x below y belowToo => before x (List.mem_cons_of_mem a (foundRecognized below).1) y
    (List.mem_cons_of_mem b (foundRecognized belowToo).1)

variable (alike : d.PlacedAlike kind none)
  (inside : ∀ id ∈ d.elements, d.recognizes kind id = true →
    ∃ above ∈ d.ancestors id, d.recognizes holder above = true)
include alike inside

theorem memScopes {id : NodeId} :
    id ∈ (d.find holder none).flatMap (fun scope => left.find kind (some scope)) ↔
      id ∈ left.find kind none := by
  have arena := reached.arena
  have arenaLeft := later.arena
  have alikeLeft : left.PlacedAlike kind none := lose.alikeLeft arena noScope alike
  rw [List.mem_flatMap, memFindAlike alikeLeft]
  constructor
  · intro given
    obtain ⟨scope, found, below⟩ := given
    obtain ⟨candidate, seen⟩ := foundRecognized below
    exact ⟨arenaLeft.candidateElement (scopeThere (stays scope found)) candidate, seen⟩
  · intro given
    obtain ⟨there, seen⟩ := given
    obtain ⟨element, attached⟩ := arenaLeft.memElements.mp there
    have before := lose.elementBefore arena there
    obtain ⟨scope, above, seenScope⟩ := inside id before (lose.recognizesSame arena attached ▸ seen)
    have found : scope ∈ d.find holder none :=
      (memFindAlike placed).mpr ⟨arena.elementAbove before above, seenScope⟩
    refine ⟨scope, found,
      (memFindAlike (arenaLeft.alikeWithin alikeLeft (stays scope found))).mpr ⟨?_, seen⟩⟩
    rw [← lose.ancestorsSame arena attached] at above
    exact arenaLeft.memDescendants.mpr ⟨element, above⟩

/- Both lists ascend, so the same members make them the same list. -/
theorem scopesFindAll (apart : ∀ id ∈ d.elements, d.recognizes holder id = true →
      ∀ above ∈ d.ancestors id, d.recognizes holder above = false) :
    (d.find holder none).flatMap (fun scope => left.find kind (some scope)) = left.find kind none ∧
      ((d.find holder none).flatMap fun scope => left.find kind (some scope)).Nodup := by
  have ascending : ((d.find holder none).flatMap fun scope => left.find kind (some scope)).Pairwise
      fun a b : Nat => a < b := scopesAscending reached later lose placed stays apart
  have same := ascending.eq_of_mem_iff (later.findAscending kind none) fun _ =>
    memScopes reached later lose placed stays alike inside
  exact ⟨same, ascending.imp Nat.ne_of_lt⟩

end Scopes

theorem Sectioned.findAll {d left : Document} {gone : NodeId → Prop} {s : Sections}
    (sectioned : d.Sectioned) (located : d.sections = .ok s) (reached : d.Reached)
    (later : left.Reached) (lose : d.Loses left gone)
    (apart : ∀ id, gone id → ∀ scope ∈ s.containers ++ s.schemas, id ≠ scope ∧ id ∉ d.ancestors scope) :
    s.FindAll left := by
  obtain ⟨containers, schemas⟩ := sectionsParts located
  have arena := reached.arena
  have stays (holder : ElementKind) (found : ∀ x ∈ d.find holder none, x ∈ s.containers ++ s.schemas) :
      ∀ scope ∈ d.find holder none, scope ∈ left.elements := by
    intro scope listed
    have there : scope ∈ d.elements := (foundRecognized listed).1
    have clear : ∀ above ∈ d.ancestors scope, ¬ gone above := fun above higher goes =>
      (apart above goes scope (found scope listed)).2 higher
    exact clearStays arena lose there clear (uncutAfter arena lose there fun goes =>
      (apart scope goes scope (found scope listed)).1 rfl)
  refine ⟨fun kind listed => ?_, fun kind listed => ?_⟩
  · rw [Sections.inSchemas, schemas]
    exact scopesFindAll reached later lose (sectioned.placed .schema (by decide))
      (stays .schema fun x inside => List.mem_append_right _ (schemas ▸ inside))
      (sectioned.placed kind (by simp [listed])) (sectioned.inSchemas kind listed)
      (sectioned.apart .schema (by decide))
  · rw [Sections.inContainers, containers]
    exact scopesFindAll reached later lose (sectioned.placed .entityContainer (by decide))
      (stays .entityContainer fun x inside => List.mem_append_left _ (containers ▸ inside))
      (sectioned.placed kind (by simp [listed])) (sectioned.inContainers kind listed)
      (sectioned.apart .entityContainer (by decide))

end Document

theorem sectionsFindAll {d : Document} (reached : d.Reached) (sectioned : d.Sectioned) {s : Sections}
    (located : d.sections = .ok s) :
    s.FindAll d ∧ ∀ ids : List NodeId,
      (∀ id ∈ ids, ∀ scope ∈ s.containers ++ s.schemas, id ≠ scope ∧ id ∉ d.ancestors scope) →
      s.FindAll (d.removeAll ids).document := by
  refine ⟨?_, fun ids apart => ?_⟩
  · exact sectioned.findAll located reached reached (.refl d fun _ => False) fun _ goes => goes.elim
  · have lose := Document.removeAllLoses reached.arena ids
    exact sectioned.findAll located reached (reached.removeAll ids) lose apart

def sectionedText : String :=
  "<D><Schema><EntityType/><EntityType/></Schema><x:EntityType xmlns:x='y'/><Schema>" ++
    "<EntityContainer><EntitySet/><FunctionImport/></EntityContainer><Association/>" ++
    "<EntityType/></Schema></D>"

theorem sectionsFindWhatIsLeft : ∃ d s, Document.parse sectionedText = .ok d ∧ d.Sectioned ∧
    d.sections = .ok s ∧ s.schemas = [1, 5] ∧ s.inSchemas d .entityType = [2, 3, 10] ∧
    s.inSchemas (d.removeAll [2, 7, 4]).document .entityType =
      (d.removeAll [2, 7, 4]).document.find .entityType none := by
  have chars : sectionedText.toList = _ := Document.charsAppend
    (Document.charsAppend (Document.charsOf rfl) (Document.charsOf rfl)) (Document.charsOf rfl)
  obtain ⟨d, read, facts⟩ := Document.okWith (x := Document.parse sectionedText)
    (p := fun d => decide d.Sectioned && d.sections.toOption.any fun s : Sections => decide (
      s.schemas = [1, 5] ∧ d.find .entityType none = [2, 3, 10] ∧
      ∀ id ∈ ([2, 7, 4] : List Nat), ∀ scope ∈ s.containers ++ s.schemas,
        id ≠ scope ∧ id ∉ d.ancestors scope))
    (by rw [Document.parseChars chars]; decide +kernel)
  obtain ⟨sectioned, found⟩ := Bool.and_eq_true_iff.mp facts
  obtain ⟨s, located, known⟩ := Document.okWith found
  obtain ⟨schemas, types, apart⟩ := of_decide_eq_true known
  obtain ⟨now, later⟩ := sectionsFindAll (.parsed read) (of_decide_eq_true sectioned) located
  exact ⟨d, s, read, of_decide_eq_true sectioned, located, schemas,
    (now.inSchemas .entityType (by decide)).1.trans types,
    ((later _ apart).inSchemas .entityType (by decide)).1⟩

end EdmxPruning
