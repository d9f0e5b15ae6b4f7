import Mathlib.Data.List.Basic
import EdmxPruning.Proofs.Pruning.Account

/-! What a run leaves alone. A run is one sequence of removals, and of each removal one can say what
stood there when its turn came. Beside the elements that are removed only blanks go, each with the
element it stood before; all other markup stays where it is. -/
namespace EdmxPruning
open Markup

/- A removal and the document as it was when its turn came. -/
structure Turn where
  document : Document
  id : NodeId
  deriving DecidableEq, Repr

namespace Document

def turns (d : Document) : List NodeId → List Turn
  | [] => []
  | id :: rest =>
      match d.remove? id with
      | none => d.turns rest
      | some smaller => ⟨d, id⟩ :: smaller.turns rest

def indentOf? (d : Document) (id : NodeId) : Option NodeId := (d.parent? id).bind (d.indent? · id)

def StandsBefore (d : Document) (first second : NodeId) : Prop :=
  ∃ parent earlier later, d.parent? second = some parent ∧
    d.children parent = earlier ++ first :: second :: later

theorem beforeSplit {x w : NodeId} {ids : List NodeId} (h : before? x ids = some w) :
    ∃ earlier later, ids = earlier ++ w :: x :: later := by
  fun_induction before? x ids with
  | case1 first rest => cases h; exact ⟨[], rest, rfl⟩
  | case2 first second rest _ ih =>
    obtain ⟨earlier, later, same⟩ := ih h
    exact ⟨first :: earlier, later, by rw [same]; rfl⟩
  | case3 => cases h

theorem indentStands {d : Document} {id blank : NodeId} (indent : d.indentOf? id = some blank) :
    d.StandsBefore blank id ∧ d.isBlankText blank = true := by
  obtain ⟨parent, above, found⟩ := Option.bind_eq_some_iff.mp indent
  obtain ⟨before, isBlank⟩ := Option.filter_eq_some_iff.mp found
  obtain ⟨earlier, later, split⟩ := beforeSplit before
  exact ⟨⟨parent, earlier, later, above, split⟩, isBlank⟩

theorem removeAllAppend (d : Document) (first second : List NodeId) :
    d.removeAll (first ++ second) =
      ⟨((d.removeAll first).document.removeAll second).document,
        (d.removeAll first).removed ++ ((d.removeAll first).document.removeAll second).removed⟩ := by
  induction first generalizing d with
  | nil => rfl
  | cons id rest ih =>
    rw [List.cons_append, removeAll, removeAll]
    cases d.remove? id with
    | none => exact ih d
    | some smaller => simp only [ih smaller, List.cons_append]

theorem turnsRemoved (d : Document) (ids : List NodeId) :
    (d.turns ids).map Turn.id = (d.removeAll ids).removed := by
  induction ids generalizing d with
  | nil => rfl
  | cons id rest ih =>
    unfold turns removeAll
    cases d.remove? id with
    | none => exact ih d
    | some smaller => exact congrArg (id :: ·) (ih smaller)

theorem turnFinds {d : Document} {ids : List NodeId} {turn : Turn} (listed : turn ∈ d.turns ids) :
    ∃ earlier later, ids = earlier ++ turn.id :: later ∧
      turn.document = (d.removeAll earlier).document := by
  induction ids generalizing d with
  | nil => cases listed
  | cons id rest ih =>
    unfold turns at listed
    cases tried : d.remove? id with
    | none =>
      rw [tried] at listed
      obtain ⟨earlier, later, split, found⟩ := ih listed
      refine ⟨id :: earlier, later, by rw [split]; rfl, ?_⟩
      rw [found, removeAll, tried]
    | some smaller =>
      rw [tried] at listed
      rcases List.mem_cons.mp listed with same | after
      · exact ⟨[], rest, by rw [same]; rfl, by rw [same]; rfl⟩
      · obtain ⟨earlier, later, split, found⟩ := ih after
        refine ⟨id :: earlier, later, by rw [split]; rfl, ?_⟩
        rw [found, removeAll, tried]

theorem cutInTurn {d : Document} (arena : d.Arena) {ids : List NodeId} {x : NodeId}
    (cut : (d.removeAll ids).document.isCut x = true) : d.isCut x = true ∨
      ∃ turn ∈ d.turns ids, x = turn.id ∨ turn.document.indentOf? turn.id = some x := by
  induction ids generalizing d with
  | nil => exact .inl cut
  | cons id rest ih =>
    unfold removeAll at cut
    unfold turns
    cases tried : d.remove? id with
    | none => rw [tried] at cut; exact ih arena cut
    | some smaller =>
      rw [tried] at cut
      rcases ih ((removeLoses arena tried).arena arena) cut with now | ⟨turn, listed, fate⟩
      · obtain ⟨parent, above, cuts⟩ := removeCuts arena tried
        have indents : d.indentOf? id = d.indent? parent id := by
          unfold indentOf?
          rw [above]
          rfl
        rcases (cuts x).mp now with old | fate
        · exact .inl old
        · exact .inr ⟨⟨d, id⟩, List.mem_cons_self, by rw [indents]; exact fate⟩
      · exact .inr ⟨turn, List.mem_cons_of_mem _ listed, fate⟩

theorem Loses.goneCut {d left : Document} {gone : NodeId → Prop} (lose : d.Loses left gone)
    {id : NodeId} (before : (d.parent? id).isSome = true) (after : left.parent? id = none) :
    d.isCut id = false ∧ left.isCut id = true := by
  obtain ⟨parent, above⟩ := Option.isSome_iff_exists.mp before
  refine ⟨(parentParts.mp above).1, ?_⟩
  by_contra kept
  rw [lose.childLeft above (Bool.eq_false_iff.mpr kept)] at after
  cases after

theorem blanksBounded {d : Document} (arena : d.Arena) {ids : List NodeId}
    (elements : ∀ id ∈ ids, d.isElement id = true) :
    (d.detached (d.removeAll ids).document d.isBlankText).length ≤
      (d.removeAll ids).removed.length := by
  have taken : d.detached (d.removeAll ids).document d.isBlankText ⊆
      (d.turns ids).filterMap fun turn => turn.document.indentOf? turn.id := by
    intro blank gone
    obtain ⟨isBlank, before, after⟩ := memDetached.mp gone
    obtain ⟨uncut, cut⟩ := (removeAllLoses arena ids).goneCut before after
    rcases cutInTurn arena cut with old | ⟨turn, listed, same | indent⟩
    · rw [uncut] at old
      cases old
    · obtain ⟨earlier, later, split, _⟩ := turnFinds listed
      have element := elements turn.id (by rw [split]; simp)
      rw [← same] at element
      rw [elementNotBlank element] at isBlank
      cases isBlank
    · exact List.mem_filterMap.mpr ⟨turn, listed, indent⟩
  have fewer := (detachedNodup d _ d.isBlankText).length_le_of_subset taken
  have many := List.length_filterMap_le (fun turn : Turn => turn.document.indentOf? turn.id) (d.turns ids)
  rw [← turnsRemoved, List.length_map]
  exact Nat.le_trans fewer many

/- What is left of a document after some removals: the nodes that went are of the kinds that are
removed, or blanks that stood before one of these in its turn. -/
structure KeepsTheRest (d left : Document) (turns : List Turn) : Prop where
  contents : ∀ id, left.content? id = d.content? id
  topLevel : left.topLevel = d.topLevel
  root : left.root = d.root
  defaultNamespace : left.defaultNamespace = d.defaultNamespace
  children : ∀ id, (left.children id).Sublist (d.children id)
  gone : ∀ id, (d.parent? id).isSome = true → left.parent? id = none → d.Removable id ∨
    (d.isBlankText id = true ∧
      ∃ turn ∈ turns, d.Removable turn.id ∧ turn.document.StandsBefore id turn.id)
  leaves : ∀ id l, d.content? id = some (.leaf l) → l.isBlankText = false →
    left.parent? id = d.parent? id

theorem Loses.leafKept {d left : Document} {gone : NodeId → Prop} (lose : d.Loses left gone)
    (elements : ∀ id, gone id → d.isElement id = true) {id : NodeId} {l : Leaf}
    (content : d.content? id = some (.leaf l)) (filled : l.isBlankText = false) :
    left.parent? id = d.parent? id := by
  have same : left.isCut id = d.isCut id := by
    refine Bool.eq_iff_iff.mpr ⟨fun cut => ?_, lose.kept id⟩
    rcases lose.lost id cut with old | now | blank
    · exact old
    · have element := elements id now
      simp [isElement, tag?, content] at element
    · simp only [isBlankText, content, filled] at blank
      cases blank
  unfold parent?
  rw [same, lose.nodes]

theorem removableElement {d : Document} {id : NodeId} (own : d.Removable id) : d.isElement id = true := by
  obtain ⟨kind, _, found⟩ := own
  exact hasKindElement found

theorem removeAllKeeps {d : Document} (arena : d.Arena) {ids : List NodeId}
    (removable : ∀ id ∈ ids, d.Removable id) :
    d.KeepsTheRest (d.removeAll ids).document (d.turns ids) := by
  have lose := removeAllLoses arena ids
  have elements : ∀ id ∈ ids, d.isElement id = true := fun id listed =>
    removableElement (removable id listed)
  refine {
    contents := fun id => by rw [lose.contentSame]
    topLevel := lose.topLevel
    root := lose.root
    defaultNamespace := lose.defaultNamespace
    children := fun id => by rw [lose.childrenLeft]; exact List.filter_sublist
    gone := fun id before after => ?_
    leaves := fun id l => lose.leafKept elements }
  obtain ⟨uncut, cut⟩ := lose.goneCut before after
  rcases cutInTurn arena cut with old | ⟨turn, listed, fate⟩
  · rw [uncut] at old
    cases old
  · obtain ⟨earlier, later, split, found⟩ := turnFinds listed
    have own := removable turn.id (by rw [split]; simp)
    rcases fate with same | indent
    · exact .inl (same ▸ own)
    · obtain ⟨stands, isBlank⟩ := indentStands indent
      rw [found, (removeAllLoses arena earlier).isBlankTextSame] at isBlank
      exact .inr ⟨isBlank, turn, listed, own, stands⟩

def afterPruning (d : Document) (requested : List ShortName) : Document :=
  match d.prune requested with
  | .error _ => d
  | .ok pruned => pruned.value.document

end Document

namespace Pruning

def calls (g : NavigationGraph) (closure : Closure) (d : Document) : List NodeId :=
  ElementKind.removable.flatMap (choice g closure d)

theorem callsRun (g : NavigationGraph) (closure : Closure) (d : Document) :
    d.removeAll (calls g closure d) =
      ⟨(run g closure d).document, ElementKind.removable.flatMap (removedBy g closure d)⟩ := by
  unfold calls
  simp only [ElementKind.removable, List.flatMap_cons, List.flatMap_nil, List.append_nil,
    Document.removeAllAppend]
  rfl

theorem callRemovable {g : NavigationGraph} {closure : Closure} {d : Document} (arena : d.Arena)
    (built : d.navigation = .ok g) : ∀ id ∈ calls g closure d, d.Removable id := by
  intro id called
  obtain ⟨kind, listed, chosen⟩ := List.mem_flatMap.mp called
  exact chosenRemovable arena built id (chosenIff.mpr ⟨kind, listed, chosen⟩)

end Pruning

theorem Document.pruneFails {d : Document} {requested : List ShortName} {e : SectionError}
    (failed : d.prune requested = .error e) : d.sections = .error e := by
  cases located : d.sections with
  | error other =>
    have unbuilt : d.navigation = .error other := by
      unfold navigation
      rw [located]
      rfl
    cases (pruneError unbuilt requested).symm.trans failed
    rfl
  | ok sections =>
    obtain ⟨g, built⟩ := navigationOf located
    obtain ⟨pruned, ok⟩ := pruneOf built requested
    cases ok.symm.trans failed

/- A call fails on the sections, before any of the removals. -/
theorem pruningKeepsTheRest {d : Document} (reached : d.Reached) (requested : List ShortName) :
    (∀ e, d.prune requested = .error e →
      d.sections = .error e ∧ d.afterPruning requested = d) ∧
    ∀ pruned, d.prune requested = .ok pruned → ∃ g, d.navigation = .ok g ∧
      let left := pruned.value.document
      let turns := d.turns (Pruning.calls g pruned.value.closure d)
      d.afterPruning requested = left ∧
      (d.removeAll (Pruning.calls g pruned.value.closure d)).document = left ∧
      turns.length = pruned.value.report.total ∧ d.KeepsTheRest left turns ∧
      (d.detached left d.isBlankText).length ≤ pruned.value.report.total := by
  have arena := reached.arena
  refine ⟨fun e failed => ⟨Document.pruneFails failed, ?_⟩, fun pruned ok => ?_⟩
  · unfold Document.afterPruning
    rw [failed]
  · obtain ⟨g, built, _, document, report⟩ := Document.pruneParts ok
    have removable : ∀ id ∈ Pruning.calls g pruned.value.closure d, d.Removable id :=
      Pruning.callRemovable arena built
    have all := Pruning.callsRun g pruned.value.closure d
    have left : (d.removeAll (Pruning.calls g pruned.value.closure d)).document =
        pruned.value.document := by rw [all, document]
    have total : (d.removeAll (Pruning.calls g pruned.value.closure d)).removed.length =
        pruned.value.report.total := by rw [all, report, Pruning.totalRemoved]
    refine ⟨g, built, ?_, left, ?_, ?_, ?_⟩
    · unfold Document.afterPruning
      rw [ok]
    · rw [← total, ← Document.turnsRemoved, List.length_map]
    · rw [← left]
      exact Document.removeAllKeeps arena removable
    · rw [← left, ← total]
      exact Document.blanksBounded arena fun id called => Document.removableElement (removable id called)

def commentedContainer : String :=
  "<Schema> <EntityContainer> <!--c--> <EntitySet EntityType=\"B\"/>x</EntityContainer> " ++
  "<EntityType Name=\"A\"/><EntityType Name=\"B\"/></Schema>"

theorem commentStays : ∃ d pruned, Document.parse commentedContainer = .ok d ∧
    d.prune [⟨"A"⟩] = .ok pruned ∧ pruned.value.report.total = 2 ∧
    d.detached pruned.value.document d.isBlankText = [5] ∧
    pruned.value.document.parent? 4 = some 2 ∧
    (pruned.value.document.children 2).Sublist [3, 4, 5, 6, 7] ∧
    ∃ turn : Turn, d.Removable turn.id ∧ turn.document.StandsBefore 5 turn.id := by
  have chars : commentedContainer.toList = _ :=
    Document.charsAppend (Document.charsOf rfl) (Document.charsOf rfl)
  obtain ⟨d, read, facts⟩ := Document.okWith (x := Document.parse commentedContainer)
    (p := fun d => (d.prune [⟨"A"⟩]).toOption.any fun pruned : Logged Pruned =>
      decide (pruned.value.report.total = 2 ∧
        d.detached pruned.value.document d.isBlankText = [5] ∧
        d.content? 4 = some (.leaf (.comment "c")) ∧ d.parent? 4 = some 2 ∧
        d.children 2 = [3, 4, 5, 6, 7]))
    (by rw [Document.parseChars chars]; decide +kernel)
  obtain ⟨pruned, ok, found⟩ := Document.okWith facts
  obtain ⟨total, blanks, comment, above, children⟩ := of_decide_eq_true found
  obtain ⟨g, _, _, _, _, keeps, _⟩ := (pruningKeepsTheRest (.parsed read) [⟨"A"⟩]).2 pruned ok
  have gone : 5 ∈ d.detached pruned.value.document d.isBlankText := by
    rw [blanks]
    exact List.mem_singleton_self 5
  obtain ⟨isBlank, before, after⟩ := Document.memDetached.mp gone
  refine ⟨d, pruned, read, ok, total, blanks, ?_, ?_, ?_⟩
  · rw [keeps.leaves 4 _ comment rfl, above]
  · rw [← children]
    exact keeps.children 2
  · rcases keeps.gone 5 before after with ⟨kind, _, own⟩ | ⟨_, turn, _, removable, stands⟩
    · rw [Document.elementNotBlank (Document.hasKindElement own)] at isBlank
      cases isBlank
    · exact ⟨turn, removable, stands⟩

end EdmxPruning
