import EdmxPruning.Proofs.Document.Writing
import EdmxPruning.Proofs.Markup.Openings
import EdmxPruning.Proofs.Pruning.Passes

/-! What is below a node. A walk with a stack of nodes to visit comes to an end and meets what the recursive
walk meets: the elements from which the way up leads to the node, in the order of their start tags.
Removals only leave fewer of them. -/
namespace EdmxPruning
open Markup
open Relation (TransGen)

structure Walk where
  stack : List NodeId
  met : List NodeId
  deriving DecidableEq, Repr

namespace Walk

def push (ids stack : List NodeId) : List NodeId := ids.foldl (fun stack id => id :: stack) stack

def start (d : Document) (scope : NodeId) : Walk := ⟨push (d.children scope).reverse [], []⟩

def step? (d : Document) (w : Walk) : Option Walk :=
  match w.stack with
  | [] => none
  | id :: rest =>
      if d.isElement id then some ⟨push (d.children id).reverse rest, w.met ++ [id]⟩
      else some ⟨rest, w.met⟩

inductive Ends (d : Document) : Walk → List NodeId → Prop where
  | done {met} : Ends d ⟨[], met⟩ met
  | step {w next found} (goes : w.step? d = some next) (later : Ends d next found) : Ends d w found

variable {d : Document}

theorem pushReversed (ids stack : List NodeId) : push ids.reverse stack = ids ++ stack := by
  simp [push]

theorem Ends.unique {w : Walk} {found other : List NodeId} (first : Ends d w found)
    (second : Ends d w other) : other = found := by
  induction first with
  | done =>
    cases second with
    | done => rfl
    | step goes => cases goes
  | step goes _ ih =>
    cases second with
    | done => cases goes
    | step goesToo later =>
      cases goes.symm.trans goesToo
      exact ih later

theorem endsElement {id : NodeId} {rest met found : List NodeId} (element : d.isElement id = true)
    (later : Ends d ⟨d.children id ++ rest, met ++ [id]⟩ found) : Ends d ⟨id :: rest, met⟩ found := by
  refine .step ?_ later
  rw [← pushReversed]
  exact if_pos element

theorem endsLeaf {id : NodeId} {rest met found : List NodeId} (leaf : d.isElement id = false)
    (later : Ends d ⟨rest, met⟩ found) : Ends d ⟨id :: rest, met⟩ found :=
  .step (if_neg (Bool.eq_false_iff.mp leaf)) later

theorem endsLeaves {ids rest met found : List NodeId} (leaves : ∀ id ∈ ids, d.isElement id = false)
    (later : Ends d ⟨rest, met⟩ found) : Ends d ⟨ids ++ rest, met⟩ found := by
  induction ids with
  | nil => exact later
  | cons id more ih =>
    refine endsLeaf (leaves id List.mem_cons_self) (ih fun x listed => ?_)
    exact leaves x (List.mem_cons_of_mem id listed)

end Walk

namespace Document

def Above (d : Document) (above id : NodeId) : Prop := TransGen (fun x p => d.parent? x = some p) id above

def branches (d : Document) (ids : List NodeId) : List NodeId :=
  (ids.filter d.isElement).flatMap fun id => id :: d.descendants id

section Subtree

variable {d : Document} (arena : d.Arena)
include arena

theorem Arena.memAncestors {a id : NodeId} : a ∈ d.ancestors id ↔ d.Above a id := by
  constructor
  · intro above
    induction id using arena.ancestorsInduction with
    | top id top => rw [Arena.ancestorsTop top] at above; cases above
    | child id parent own ih =>
      rcases (arena.memAncestorsChild own).mp above with same | higher
      · exact same ▸ .single own
      · exact .head own (ih higher)
  · intro above
    induction above using TransGen.head_induction_on with
    | single own => exact (arena.memAncestorsChild own).mpr (.inl rfl)
    | head own _ ih => exact (arena.memAncestorsChild own).mpr (.inr ih)

/- The siblings on top of the stack are walked through before the rest is looked at. The depth that is
left bounds how far down they reach. -/
theorem Arena.walkBranches {depth : Nat} {ids rest met found : List NodeId}
    (reach : ∀ id : Nat, id ∈ ids → d.nodes.size ≤ id + depth)
    (later : Walk.Ends d ⟨rest, met ++ d.branches ids⟩ found) :
    Walk.Ends d ⟨ids ++ rest, met⟩ found := by
  induction depth generalizing ids rest met with
  | zero =>
    have leaves : ∀ id ∈ ids, d.isElement id = false := fun id listed =>
      Bool.eq_false_iff.mpr fun element =>
        absurd (elementBelow element) (Nat.not_lt.mpr (reach id listed))
    have none : d.branches ids = [] := by
      rw [branches, List.filter_eq_nil_iff.mpr fun id listed => Bool.eq_false_iff.mp (leaves id listed)]
      rfl
    rw [none, List.append_nil] at later
    exact Walk.endsLeaves leaves later
  | succ depth deeper =>
    induction ids generalizing met with
    | nil => simpa [branches] using later
    | cons id more ih =>
      have reachMore : ∀ x : Nat, x ∈ more → d.nodes.size ≤ x + (depth + 1) :=
        fun x listed => reach x (List.mem_cons_of_mem id listed)
      cases element : d.isElement id with
      | false =>
        refine Walk.endsLeaf element (ih reachMore ?_)
        simpa [branches, element] using later
      | true =>
        have reachBelow : ∀ x : Nat, x ∈ d.children id → d.nodes.size ≤ x + depth := by
          intro x listed
          have before := arena.parentBefore (arena.memChildren.mp listed)
          have own := reach id List.mem_cons_self
          omega
        have below : d.branches (d.children id) = d.descendants id := (arena.descendantsBelow id).symm
        refine Walk.endsElement element (deeper reachBelow (ih reachMore ?_))
        rw [below]
        simpa [branches, element] using later

theorem Arena.walkEnds (scope : NodeId) : Walk.Ends d (.start d scope) (d.descendants scope) := by
  have reach : ∀ id : Nat, id ∈ d.children scope → d.nodes.size ≤ id + d.nodes.size :=
    fun id _ => Nat.le_add_left _ id
  have all : Walk.Ends d ⟨d.children scope ++ [], []⟩ (d.descendants scope) := by
    refine arena.walkBranches reach ?_
    rw [branches, ← arena.descendantsBelow]
    exact .done
  rwa [← Walk.pushReversed] at all

theorem Arena.onlyDescendants {walk : NodeId → List NodeId}
    (recursive : ∀ id, walk id =
      ((d.children id).filter d.isElement).flatMap fun child => child :: walk child)
    (scope : NodeId) : walk scope = d.descendants scope := by
  have within (depth : Nat) (id : Nat) (reach : d.nodes.size ≤ id + depth) :
      walk id = d.descendants id := by
    induction depth generalizing id with
    | zero =>
      have childless : d.children id = [] := by
        refine List.eq_nil_iff_forall_not_mem.mpr fun child listed => ?_
        exact absurd (arena.parentBelow (arena.memChildren.mp listed)) (Nat.not_lt.mpr reach)
      rw [recursive, arena.descendantsBelow, childless]
      rfl
    | succ depth ih =>
      rw [recursive, arena.descendantsBelow, List.flatMap_def, List.flatMap_def]
      refine congrArg List.flatten (List.map_congr_left fun child listed => ?_)
      have before := arena.parentBefore (arena.memChildren.mp (List.mem_filter.mp listed).1)
      rw [ih child (by omega)]
  exact within d.nodes.size scope (Nat.le_add_left _ _)

end Subtree

section Order

variable (d : Document)

theorem listingMarks (depth : Nat) (ids : List NodeId) :
    (d.listingWithin depth ids).map Prod.snd = (d.forestWithin depth ids).marks := by
  induction depth generalizing ids with
  | zero => rfl
  | succ depth deeper =>
    induction ids with
    | nil => rfl
    | cons id rest ih =>
      rw [listingWithinCons, forestWithinCons, List.map_append, ih]
      cases d.content? id with
      | none => rfl
      | some content =>
        cases content with
        | leaf l => rfl
        | element tag uri => simp [Forest.marks, deeper]

theorem listingTags (depth : Nat) (ids : List NodeId) :
    ((d.listingWithin depth ids).map Prod.snd).filterMap Mark.tag? =
      (met (d.listingWithin depth ids)).filterMap d.tag? := by
  induction depth generalizing ids with
  | zero => rfl
  | succ depth deeper =>
    induction ids with
    | nil => rfl
    | cons id rest ih =>
      rw [listingWithinCons, List.map_append, List.filterMap_append, metAppend, List.filterMap_append, ih]
      congr 1
      cases shape : d.content? id with
      | none => rfl
      | some content =>
        cases content with
        | leaf l => simp [met, tag?, shape, Mark.tag?]
        | element tag uri =>
          have own : d.tag? id = some tag := by simp [tag?, shape]
          simp only [metElement, List.filterMap_cons_some own, ← deeper]
          simp [Mark.tag?]

end Order

theorem parsedTags {text : String} {d : Document} (read : parse text = .ok d) :
    (scan text).tokens.filterMap Token.tag? =
      (List.range d.nodes.size).filterMap fun id => (d.tag? id).map Except.ok := by
  have good := parsedWellFormed read
  obtain ⟨other, readToo, marks, numbers⟩ := parseWellFormed good
  cases read.symm.trans readToo
  have shown := d.listingTags d.nodes.size d.topLevel
  change (d.listing.map Prod.snd).filterMap Mark.tag? = (met d.listing).filterMap d.tag? at shown
  rw [← countedTags good.attributes [], ← marks, shown, numbers, List.map_filterMap]

theorem Arena.writtenTags {d : Document} (arena : d.Arena) : d.tokens.filterMap Token.tagContent? =
    (d.root :: d.descendants d.root).filterMap fun id => (d.tag? id).map Tag.content := by
  have whole : d.forest = d.forestWithin (d.nodes.size + 1) d.topLevel := by
    refine (treeOfDocument arena).unique (treeWithin arena fun id listed => ?_)
    exact ⟨((arena.topLevel id).mp listed).1, Nat.le_add_left_of_le (Nat.le_succ _)⟩
  have elements := d.metElements d.nodes.size d.topLevel
  rw [arena.rootAlone] at elements
  have tags : d.forest.tags = (d.root :: d.descendants d.root).filterMap d.tag? := by
    calc d.forest.tags
      _ = (met (d.listingWithin (d.nodes.size + 1) d.topLevel)).filterMap d.tag? := by
        rw [Forest.tags, whole, ← listingMarks, listingTags]
      _ = ((met (d.listingWithin (d.nodes.size + 1) d.topLevel)).filter d.isElement).filterMap d.tag? := by
        rw [List.filterMap_filter]
        refine List.filterMap_congr fun id _ => ?_
        unfold isElement
        cases d.tag? id <;> rfl
      _ = (d.root :: d.descendants d.root).filterMap d.tag? := by
        rw [elements]
        simp [descendants]
  rw [tokens, List.filterMap_cons_none rfl, Forest.linesTags, tags, List.map_filterMap]

/- What is below a node: what a walk with a stack has met when it comes to its end, which are the elements
with the node above them, each once and in the order of their numbers. -/
structure Subtree (d : Document) (scope : NodeId) (found : List NodeId) : Prop where
  walked : ∀ other, Walk.Ends d (.start d scope) other ↔ other = found
  members : ∀ id, id ∈ found ↔ d.isElement id = true ∧ id ≠ scope ∧ d.Above scope id
  ascending : found.Pairwise fun a b : Nat => a < b

theorem Reached.subtree {d : Document} (reached : d.Reached) (scope : NodeId) :
    d.Subtree scope (d.descendants scope) where
  walked other := by
    have ends := reached.arena.walkEnds scope
    exact ⟨ends.unique, fun same => same ▸ ends⟩
  members id := by
    rw [reached.arena.memDescendants, reached.arena.memAncestors]
    refine and_congr_right fun _ => (and_iff_right_of_imp fun above same => ?_).symm
    have before := reached.arena.ancestorBefore (reached.arena.memAncestors.mpr above)
    exact Nat.lt_irrefl scope (same ▸ before)
  ascending := reached.descendantsAscending scope

end Document

open Document in
theorem descendantsAreTheSubtree {text : String} {origin : Document}
    (read : Document.parse text = .ok origin) (calls : List NodeId) :
    let d := (origin.removeAll calls).document
    (∀ scope, d.Subtree scope (d.descendants scope)) ∧
    -- The recursion over children has this solution and no other.
    (∀ walk : NodeId → List NodeId, (∀ id, walk id =
      ((d.children id).filter d.isElement).flatMap fun child => child :: walk child) ↔
      walk = d.descendants) ∧
    (scan text).tokens.filterMap Token.tag? =
      ((List.range d.nodes.size).filterMap fun id => (d.tag? id).map Except.ok) ∧
    d.tokens.filterMap Token.tagContent? =
      (d.root :: d.descendants d.root).filterMap fun id => (d.tag? id).map Tag.content := by
  intro d
  have parsed := Reached.parsed read
  have reached : d.Reached := parsed.removeAll calls
  have loses := removeAllLoses parsed.arena calls
  refine ⟨reached.subtree, fun walk => ⟨fun recursion => ?_, fun same => ?_⟩, ?_,
    reached.arena.writtenTags⟩
  · exact funext (reached.arena.onlyDescendants recursion)
  · rw [same]
    exact reached.arena.descendantsBelow
  · rw [loses.tagSame, loses.nodes]
    exact parsedTags read

theorem subtreesAfterRemoval : ∃ d : Document,
    Document.parse "<!--c--><a> <b>x<c><e/></c></b>y<f/></a>" = .ok d ∧
    let left := (d.removeAll [3]).document
    Walk.Ends left (.start left 3) [5, 6] ∧ Walk.Ends left (.start left 1) [8] ∧
    Walk.Ends left (.start left 4) [] ∧ Walk.Ends left (.start left 99) [] ∧
    left.Above 3 6 ∧ ¬ left.Above 1 6 := by
  obtain ⟨d, read, facts⟩ := Document.okWith
    (x := Document.parse "<!--c--><a> <b>x<c><e/></c></b>y<f/></a>")
    (p := fun d =>
      let left := (d.removeAll [3]).document
      decide (left.descendants 3 = [5, 6] ∧ left.descendants 1 = [8] ∧ left.descendants 4 = [] ∧
        left.descendants 99 = [] ∧ left.isElement 6 = true))
    (by decide +kernel)
  obtain ⟨below, kept, leaf, nowhere, element⟩ := of_decide_eq_true facts
  have subtree := (descendantsAreTheSubtree read [3]).1
  have above := ((subtree 3).members 6).mp (by rw [below]; decide)
  refine ⟨d, read, ((subtree 3).walked _).mpr below.symm, ((subtree 1).walked _).mpr kept.symm,
    ((subtree 4).walked _).mpr leaf.symm, ((subtree 99).walked _).mpr nowhere.symm, above.2.2,
    fun still => ?_⟩
  have listed := ((subtree 1).members 6).mpr ⟨element, by decide, still⟩
  rw [kept] at listed
  exact absurd listed (by decide)

end EdmxPruning
