import Mathlib.Data.List.Sort
import EdmxPruning.Proofs.Document.Order
import EdmxPruning.Proofs.Metadata.Recognition
import EdmxPruning.Proofs.Pruning.Removals

/-! What a removal does to a search. Each placement loses its matches in the branch that was taken out
and no others, and once the one that was searched has none left, the next one that has any comes to
light. -/
namespace EdmxPruning

inductive FirstFilled : List (List NodeId) → List NodeId → Prop where
  | none : FirstFilled [] []
  | here {found rest} (filled : found ≠ []) : FirstFilled (found :: rest) found
  | later {found rest} (further : FirstFilled rest found) : FirstFilled ([] :: rest) found

namespace FirstFilled

variable {lists : List (List NodeId)} {found : List NodeId}

theorem unique {other : List NodeId} (first : FirstFilled lists found)
    (second : FirstFilled lists other) : other = found := by
  induction first with
  | none => cases second; rfl
  | here filled =>
    cases second with
    | here => rfl
    | later => exact absurd rfl filled
  | later further ih =>
    cases second with
    | here filled => exact absurd rfl filled
    | later more => exact ih more

theorem listed (first : FirstFilled lists found) : found = [] ∨ found ∈ lists := by
  induction first with
  | none => exact .inl rfl
  | here => exact .inr List.mem_cons_self
  | later _ ih => exact ih.imp_right (List.mem_cons_of_mem [])

/- What is left of the first filled list is the first filled of what is left, unless it is empty. -/
theorem filter {keep : NodeId → Bool} (first : FirstFilled lists found)
    (filled : found.filter keep ≠ []) :
    FirstFilled (lists.map (List.filter keep)) (found.filter keep) := by
  induction first with
  | none => exact absurd rfl filled
  | here => exact .here filled
  | later _ ih => exact .later (ih filled)

variable {α : Type} (lookup : α → List NodeId) (places : List α)

theorem search : FirstFilled (places.map lookup) ((places.findSome? fun place =>
    if (lookup place).isEmpty then Option.none else some (lookup place)).getD []) := by
  induction places with
  | nil => exact .none
  | cons place rest ih =>
    by_cases empty : lookup place = []
    · simpa [empty] using ih.later
    · have first : FirstFilled (lookup place :: rest.map lookup) (lookup place) := .here empty
      simpa [empty] using first

/- If nothing is left of the first filled list, then the lists behind it decide. -/
theorem further {keep : NodeId → Bool} {result : List NodeId}
    (first : FirstFilled (places.map lookup) found) (used : found.filter keep = [])
    (now : FirstFilled (places.map fun place => (lookup place).filter keep) result) :
    FirstFilled (((places.dropWhile fun place => (lookup place).isEmpty).drop 1).map
      fun place => (lookup place).filter keep) result := by
  induction places with
  | nil => exact now
  | cons place rest ih =>
    by_cases empty : lookup place = []
    · rw [List.map_cons, empty] at first
      rw [List.map_cons, empty] at now
      rw [List.dropWhile_cons_of_pos (by simp [empty])]
      cases first with
      | here filled => exact absurd rfl filled
      | later first =>
        cases now with
        | here filled => exact absurd rfl filled
        | later now => exact ih first now
    · have own : lookup place = found := by
        rw [List.map_cons] at first
        exact first.unique (.here empty)
      rw [List.map_cons, own, used] at now
      rw [List.dropWhile_cons_of_neg (by simp [empty])]
      cases now with
      | here filled => exact absurd rfl filled
      | later now => exact now

end FirstFilled

namespace Document

def foundAt (d : Document) (placement : Placement) (kind : ElementKind) (scope : Option NodeId) :
    List NodeId := d.matching placement kind (d.candidates scope)

def outside (d : Document) (id : NodeId) (found : List NodeId) : List NodeId :=
  found.filter fun other => decide (other ∉ id :: d.descendants id)

def laterPlacements (d : Document) (kind : ElementKind) (scope : Option NodeId) : List Placement :=
  (Placement.ordered.dropWhile fun placement => (d.foundAt placement kind scope).isEmpty).drop 1

structure SearchLeft (d left : Document) (id : NodeId) (kind : ElementKind)
    (scope : Option NodeId) : Prop where
  everyPlacement : ∀ placement,
    left.foundAt placement kind scope = d.outside id (d.foundAt placement kind scope)
  stillFound : d.outside id (d.find kind scope) ≠ [] →
    left.find kind scope = d.outside id (d.find kind scope)
  untouched : id ∉ d.candidates scope → left.find kind scope = d.find kind scope
  uncovered : d.outside id (d.find kind scope) = [] →
    FirstFilled ((d.laterPlacements kind scope).map fun placement =>
      d.outside id (d.foundAt placement kind scope)) (left.find kind scope)

theorem findFirst (d : Document) (kind : ElementKind) (scope : Option NodeId) :
    FirstFilled (Placement.ordered.map fun placement => d.foundAt placement kind scope)
      (d.find kind scope) :=
  .search (fun placement => d.foundAt placement kind scope) Placement.ordered

theorem memOutside {d : Document} (arena : d.Arena) {id other : NodeId} {found : List NodeId}
    (elements : ∀ x ∈ found, d.isElement x = true) :
    other ∈ d.outside id found ↔ other ∈ found ∧ other ≠ id ∧ id ∉ d.ancestors other := by
  unfold outside
  rw [List.mem_filter, decide_eq_true_eq, List.mem_cons, arena.memDescendants, not_or]
  constructor
  · exact fun ⟨inside, different, apart⟩ =>
      ⟨inside, different, fun above => apart ⟨elements other inside, above⟩⟩
  · exact fun ⟨inside, different, apart⟩ => ⟨inside, different, fun below => apart below.2⟩

theorem Reached.candidatesAscending {d : Document} (reached : d.Reached) (scope : Option NodeId) :
    (d.candidates scope).Pairwise fun a b : Nat => a < b := by
  cases scope with
  | some s => exact reached.descendantsAscending s
  | none =>
    have arena := reached.arena
    refine List.pairwise_cons.mpr ⟨fun x below => ?_, reached.descendantsAscending d.root⟩
    exact arena.ancestorBefore (arena.memDescendants.mp below).2

theorem Arena.candidateIsElement {d : Document} (arena : d.Arena) {scope : Option NodeId}
    {id : NodeId} (inside : id ∈ d.candidates scope) : d.isElement id = true := by
  cases scope with
  | none => exact (arena.memElements.mp inside).1
  | some s => exact (arena.memDescendants.mp inside).1

theorem Arena.candidatesApart {d : Document} (arena : d.Arena) {scope : Option NodeId} {x y : NodeId}
    (apart : ∀ s ∈ scope, x ≠ s ∧ x ∉ d.ancestors s) (away : x ∉ d.candidates scope)
    (inside : y ∈ d.candidates scope) : y ∉ x :: d.descendants x := by
  intro branch
  rcases List.mem_cons.mp branch with same | below
  · exact away (same ▸ inside)
  · have above := (arena.memDescendants.mp below).2
    cases scope with
    | none => exact away (arena.elementAbove inside above)
    | some s =>
      obtain ⟨other, clear⟩ := apart s rfl
      have scopeAbove := (arena.memDescendants.mp inside).2
      rcases arena.ancestorsChain (.inr scopeAbove) (.inr above) with same | higher | lower
      · exact other same.symm
      · exact away (arena.memDescendants.mpr ⟨arena.ancestorElement above, higher⟩)
      · exact clear lower

section Taking

variable {d left : Document} {x : NodeId} (arena : d.Arena) (lose : d.Loses left (· = x))
include arena lose

theorem Loses.ancestorsKept {y : NodeId} (element : d.isElement y = true) (other : y ≠ x)
    (apart : x ∉ d.ancestors y) : left.ancestors y = d.ancestors y := by
  induction y using arena.ancestorsInduction with
  | top y top => rw [Arena.ancestorsTop top, Arena.ancestorsTop (lose.detachedAfter top)]
  | child y parent above ih =>
    have own : left.parent? y = some parent := (lose.parentKept element other).trans above
    rw [arena.memAncestorsChild above, not_or] at apart
    rw [arena.ancestorsChild above, (lose.arena arena).ancestorsChild own,
      ih (arena.parentElement above) (Ne.symm apart.1) apart.2]

/- Whoever is taken out keeps only those above that were taken out as well. -/
theorem Loses.ancestorsInBranch (detached : left.parent? x = none) {y a : NodeId}
    (branch : x = y ∨ x ∈ d.ancestors y) (above : a ∈ left.ancestors y) :
    x = a ∨ x ∈ d.ancestors a := by
  have arena' := lose.arena arena
  induction y using arena'.ancestorsInduction with
  | top y top => rw [Arena.ancestorsTop top] at above; cases above
  | child y parent own ih =>
    have higher : x = parent ∨ x ∈ d.ancestors parent := by
      rcases branch with same | below
      · rw [← same, detached] at own
        cases own
      · exact (arena.memAncestorsChild (lose.parentBefore own)).mp below
    rcases (arena'.memAncestorsChild own).mp above with same | further
    · exact same ▸ higher
    · exact ih higher further

end Taking

section Search

variable {d left : Document} (reached : d.Reached) {x : NodeId} (ok : d.remove? x = some left)
include reached ok

theorem descendantsOutside {s : NodeId} (other : x ≠ s) (apart : x ∉ d.ancestors s) :
    left.descendants s = d.outside x (d.descendants s) := by
  have arena := reached.arena
  have lose := removeLoses arena ok
  have now := (Reached.removed reached ok).descendantsAscending s
  have before := (reached.descendantsAscending s).filter fun y => decide (y ∉ x :: d.descendants x)
  refine now.eq_of_mem_iff before fun y => ?_
  have elements : ∀ y ∈ d.descendants s, d.isElement y = true :=
    fun y below => (arena.memDescendants.mp below).1
  rw [memOutside arena elements, (lose.arena arena).memDescendants, arena.memDescendants,
    lose.isElementSame]
  constructor
  · intro given
    obtain ⟨element, above⟩ := given
    have clear : ¬ (x = y ∨ x ∈ d.ancestors y) := fun branch =>
      (lose.ancestorsInBranch arena (removeDetaches arena ok) branch above).elim other apart
    rw [not_or] at clear
    exact ⟨⟨element, lose.ancestorsBefore arena above⟩, Ne.symm clear.1, clear.2⟩
  · intro given
    obtain ⟨⟨element, above⟩, different, clear⟩ := given
    rw [lose.ancestorsKept arena element different clear]
    exact ⟨element, above⟩

variable {scope : Option NodeId} (apart : ∀ s ∈ scope, x ≠ s ∧ x ∉ d.ancestors s)
include apart

theorem candidatesOutside : left.candidates scope = d.outside x (d.candidates scope) := by
  cases scope with
  | some s => exact descendantsOutside reached ok (apart s rfl).1 (apart s rfl).2
  | none =>
    have arena := reached.arena
    have rootAbove : d.ancestors d.root = [] := Arena.ancestorsTop arena.rootParent
    have other : x ≠ d.root := by
      intro same
      obtain ⟨parent, above, _⟩ := removeCases ok
      rw [same, arena.rootParent] at above
      cases above
    have clear : x ∉ d.ancestors d.root := by
      rw [rootAbove]
      exact List.not_mem_nil
    have stays : d.root ∉ x :: d.descendants x := by
      rw [List.mem_cons, arena.memDescendants, not_or]
      exact ⟨Ne.symm other, fun below => clear below.2⟩
    show left.root :: left.descendants left.root = d.outside x (d.root :: d.descendants d.root)
    rw [(removeLoses arena ok).root, descendantsOutside reached ok other clear]
    exact (List.filter_cons_of_pos (by simpa only [decide_eq_true_eq] using stays)).symm

theorem foundOutside (placement : Placement) (kind : ElementKind) :
    left.foundAt placement kind scope = d.outside x (d.foundAt placement kind scope) := by
  have arena := reached.arena
  have lose := removeLoses arena ok
  unfold foundAt matching
  rw [candidatesOutside reached ok apart]
  unfold outside
  rw [List.filter_filter, List.filter_filter]
  refine List.filter_congr fun y inside => ?_
  by_cases branch : y ∈ x :: d.descendants x
  · simp only [branch, not_true, decide_false, Bool.and_false, Bool.false_and]
  · have element := arena.candidateIsElement inside
    rw [List.mem_cons, arena.memDescendants, not_or] at branch
    have above := lose.ancestorsKept arena element branch.1 fun below => branch.2 ⟨element, below⟩
    have same : left.accepts placement kind y = d.accepts placement kind y := by
      unfold accepts
      rw [lose.hasKindSame, lose.isPlacedOf above]
    rw [same, Bool.and_comm]

theorem findAfterwards (kind : ElementKind) :
    FirstFilled (Placement.ordered.map fun placement => d.outside x (d.foundAt placement kind scope))
      (left.find kind scope) := by
  have first := left.findFirst kind scope
  simpa only [foundOutside reached ok apart] using first

theorem searchLeft (kind : ElementKind) : d.SearchLeft left x kind scope where
  everyPlacement placement := foundOutside reached ok apart placement kind
  stillFound filled := by
    have first := (d.findFirst kind scope).filter filled
    rw [List.map_map] at first
    exact first.unique (findAfterwards reached ok apart kind)
  untouched away := by
    have same (placement : Placement) :
        d.outside x (d.foundAt placement kind scope) = d.foundAt placement kind scope :=
      List.filter_eq_self.mpr fun y listed =>
        decide_eq_true (reached.arena.candidatesApart apart away (List.mem_filter.mp listed).1)
    have first := findAfterwards reached ok apart kind
    simp only [same] at first
    exact (d.findFirst kind scope).unique first
  uncovered used := .further _ Placement.ordered (d.findFirst kind scope) used
    (findAfterwards reached ok apart kind)

end Search

end Document

theorem searchesAfterRemoval {d : Document} (reached : d.Reached) (kind : ElementKind)
    (scope : Option NodeId) :
    (d.find kind scope).Pairwise (fun a b : Nat => a < b) ∧
    ∀ x left, d.remove? x = some left → (∀ s ∈ scope, x ≠ s ∧ x ∉ d.ancestors s) →
      d.SearchLeft left x kind scope := by
  refine ⟨?_, fun x left ok apart => Document.searchLeft reached ok apart kind⟩
  rcases (d.findFirst kind scope).listed with none | found
  · rw [none]
    exact .nil
  · obtain ⟨placement, _, same⟩ := List.mem_map.mp found
    rw [← same]
    exact (reached.candidatesAscending scope).filter _

theorem hiddenTypeAppears : ∃ d left : Document,
    Document.parse "<Schema xmlns='u'><EntityType/><EntityType xmlns=''/></Schema>" = .ok d ∧
    d.remove? 1 = some left ∧
    d.find .entityType (some 0) = [1] ∧ left.find .entityType (some 0) = [2] ∧
    d.SearchLeft left 1 .entityType (some 0) ∧
    FirstFilled [[2], []] (left.find .entityType (some 0)) := by
  obtain ⟨d, read, facts⟩ := Document.okWith (x := Document.parse
      "<Schema xmlns='u'><EntityType/><EntityType xmlns=''/></Schema>")
    (p := fun d => decide (d.find .entityType (some 0) = [1] ∧ (1 ≠ 0 ∧ 1 ∉ d.ancestors 0) ∧
        d.outside 1 (d.find .entityType (some 0)) = [] ∧
        (d.laterPlacements .entityType (some 0)).map (fun placement =>
          d.outside 1 (d.foundAt placement .entityType (some 0))) = [[2], []]) &&
      (d.remove? 1).any fun left : Document => decide (left.find .entityType (some 0) = [2]))
    (by decide +kernel)
  obtain ⟨before, removed⟩ := Bool.and_eq_true_iff.mp facts
  obtain ⟨found, apart, used, behind⟩ := of_decide_eq_true before
  obtain ⟨left, ok, after⟩ := (Option.any_eq_true _ _).mp removed
  have search := (searchesAfterRemoval (.parsed read) .entityType (some 0)).2 1 left ok
    fun s same => Option.some.inj same ▸ apart
  have uncovered := search.uncovered used
  rw [behind] at uncovered
  exact ⟨d, left, read, ok, found, of_decide_eq_true after, search, uncovered⟩

end EdmxPruning
