import Mathlib.Data.List.Nodup
import EdmxPruning.Proofs.Document.Blanks
import EdmxPruning.Proofs.Document.RoundTrip

/-! Documents that have the same elements under other numbers. The trees of two documents may differ
in their leaves; as long as their elements agree, some renumbering takes the elements of one to those
of the other in their order, with their tags, their parents and so their namespaces. -/
namespace EdmxPruning
open Markup

namespace Markup.Forest

def bare : Forest → Forest
  | .nil => .nil
  | .leaf _ rest => rest.bare
  | .element tag children rest => .element tag children.bare rest.bare

def retag (change : Tag → Tag) : Forest → Forest
  | .nil => .nil
  | .leaf l rest => .leaf l (rest.retag change)
  | .element tag children rest =>
      .element (change tag) (children.retag change) (rest.retag change)

theorem retagId (f : Forest) : f.retag id = f := by
  induction f with
  | nil => rfl
  | leaf l rest ih => simp only [retag, ih]
  | element tag children rest ihc ihr => simp only [retag, ihc, ihr, id]

theorem retagKeeps {change : Tag → Tag} {f : Forest}
    (same : f.Each (fun tag => change tag = tag) fun _ => True) : f.bare.retag change = f.bare := by
  induction f with
  | nil => rfl
  | leaf l rest ih => exact ih same.2
  | element tag children rest ihc ihr => simp only [bare, retag, same.1, ihc same.2.1, ihr same.2.2]

theorem writtenRetagged (f : Forest) : f.written.bare = f.bare.retag Tag.written := by
  have withText (content : String) (g : Forest) : (g.withText content).bare = g.bare := by
    unfold Forest.withText
    split <;> rfl
  induction f with
  | nil => rfl
  | leaf l rest ih =>
    cases l with
    | text content => exact (withText content rest.written).trans ih
    | _ => exact ih
  | element tag children rest ihc ihr => simp only [written, bare, retag, ihc, ihr]

theorem writtenBare {f : Forest} (same : f.Each (fun tag => tag.written = tag) fun _ => True) :
    f.written.bare = f.bare :=
  (writtenRetagged f).trans (retagKeeps same)

end Markup.Forest

namespace Document

theorem descendantsWithinBelow (d : Document) (depth : Nat) (id : NodeId) :
    d.descendantsWithin (depth + 1) id =
      ((d.children id).filter d.isElement).flatMap fun c => c :: d.descendantsWithin depth c := by
  rw [descendantsWithin]
  induction d.children id with
  | nil => rfl
  | cons child rest ih =>
    rw [List.flatMap_cons, ih, List.filter_cons]
    cases d.isElement child <;> simp

section Lists

variable {d : Document} (arena : d.Arena)
include arena

theorem Arena.ancestorBefore {a id : Nat} (h : a ∈ d.ancestors id) : a < id := by
  induction id using arena.ancestorsInduction with
  | top id top => rw [Arena.ancestorsTop top] at h; cases h
  | child id parent own ih =>
    have before := arena.parentBefore own
    rcases (arena.memAncestorsChild own).mp h with same | higher
    · exact same ▸ before
    · exact Nat.lt_trans (ih higher) before

theorem Arena.ancestorsChain {a b x : NodeId} (first : a = x ∨ a ∈ d.ancestors x)
    (second : b = x ∨ b ∈ d.ancestors x) : a = b ∨ a ∈ d.ancestors b ∨ b ∈ d.ancestors a := by
  induction x using arena.ancestorsInduction with
  | top x top =>
    rw [Arena.ancestorsTop top] at first second
    simp only [List.not_mem_nil, or_false] at first second
    exact .inl (first.trans second.symm)
  | child x parent own ih =>
    rcases first with here | above
    · rcases second with hereToo | aboveToo
      · exact .inl (here.trans hereToo.symm)
      · exact .inr (.inr (here ▸ aboveToo))
    · rcases second with hereToo | aboveToo
      · exact .inr (.inl (hereToo ▸ above))
      · exact ih ((arena.memAncestorsChild own).mp above) ((arena.memAncestorsChild own).mp aboveToo)

theorem Arena.siblingsApart {a b p x : Nat} (parent : d.parent? a = some p)
    (parentToo : d.parent? b = some p) (first : a = x ∨ a ∈ d.ancestors x)
    (second : b = x ∨ b ∈ d.ancestors x) : a = b := by
  have notAbove {y z : Nat} (ownY : d.parent? y = some p) (ownZ : d.parent? z = some p) :
      y ∉ d.ancestors z := by
    intro above
    have before := arena.parentBefore ownY
    rcases (arena.memAncestorsChild ownZ).mp above with same | higher
    · exact absurd before (same ▸ Nat.lt_irrefl p)
    · exact absurd (arena.ancestorBefore higher) (Nat.lt_asymm before)
  rcases arena.ancestorsChain first second with same | above | above
  · exact same
  · exact absurd above (notAbove parent parentToo)
  · exact absurd above (notAbove parentToo parent)

theorem Arena.descendantsWithinNodup {depth a : Nat} (enough : d.nodes.size ≤ a + depth) :
    (d.descendantsWithin depth a).Nodup := by
  induction depth generalizing a with
  | zero => exact List.nodup_nil
  | succ depth ih =>
    have branch {c x : Nat} (listed : c ∈ d.children a)
        (h : x ∈ if d.isElement c then c :: d.descendantsWithin depth c else []) :
        c = x ∨ c ∈ d.ancestors x := by
      have before := arena.parentBefore (arena.memChildren.mp listed)
      split at h
      · rcases List.mem_cons.mp h with same | below
        · exact .inl same.symm
        · exact .inr ((arena.memDescendantsWithin (by omega)).mp below).2
      · cases h
    rw [descendantsWithin, List.nodup_flatMap]
    refine ⟨fun c listed => ?_, ?_⟩
    · have before := arena.parentBefore (arena.memChildren.mp listed)
      split
      · refine List.nodup_cons.mpr ⟨fun below => ?_, ih (a := c) (by omega)⟩
        have above := ((arena.memDescendantsWithin (a := c) (by omega)).mp below).2
        exact absurd (arena.ancestorBefore above) (Nat.lt_irrefl c)
      · exact List.nodup_nil
    · refine (arena.childrenNodup a).pairwise_of_forall_ne fun c listed other listedToo apart => ?_
      intro x inFirst inSecond
      exact apart (arena.siblingsApart (arena.memChildren.mp listed) (arena.memChildren.mp listedToo)
        (branch listed inFirst) (branch listedToo inSecond))

theorem Arena.elementsNodup : d.elements.Nodup := by
  refine List.nodup_cons.mpr ⟨fun below => ?_, arena.descendantsWithinNodup (Nat.le_add_left _ _)⟩
  have above := (arena.memDescendants.mp below).2
  rw [Arena.ancestorsTop arena.rootParent] at above
  cases above

theorem Arena.descendantsBelow (id : NodeId) : d.descendants id =
    ((d.children id).filter d.isElement).flatMap fun child => child :: d.descendants child := by
  unfold descendants
  rw [← descendantsWithinBelow]
  exact arena.descendantsWithinEnough (by omega) (by omega)

end Lists

inductive Outline (d : Document) : List NodeId → Forest → Prop where
  | none : Outline d [] .nil
  | element {id rest tag below later} (own : d.tag? id = some tag)
      (inside : Outline d ((d.children id).filter d.isElement) below)
      (after : Outline d rest later) : Outline d (id :: rest) (.element tag below later)

theorem Tree.outline {d : Document} {ids : List NodeId} {f : Forest} (tree : d.Tree ids f) :
    d.Outline (ids.filter d.isElement) f.bare := by
  induction tree with
  | none => exact .none
  | leaf own after ih =>
    rwa [List.filter_cons_of_neg (by simp [isElement, tag?, own])]
  | element own inside after ihInside ihAfter =>
    rw [List.filter_cons_of_pos (by simp [isElement, tag?, own])]
    exact .element (by simp [tag?, own]) ihInside ihAfter

/- The elements below two lists, each with its counterpart, whose tag is the changed one: both are
listed or have counterparts for parents. -/
structure Pairing (change : Tag → Tag) (a b : Document) (ids others : List NodeId)
    (pairs : List (NodeId × NodeId)) : Prop where
  left : pairs.map Prod.fst = ids.flatMap fun id => id :: a.descendants id
  right : pairs.map Prod.snd = others.flatMap fun id => id :: b.descendants id
  tags : ∀ pair ∈ pairs, b.tag? pair.2 = (a.tag? pair.1).map change
  parents : ∀ pair ∈ pairs, pair.1 ∈ ids ∧ pair.2 ∈ others ∨
    ∃ above ∈ pairs, a.parent? pair.1 = some above.1 ∧ b.parent? pair.2 = some above.2

theorem Outline.pairing {change : Tag → Tag} {a b : Document} (arenaA : a.Arena) (arenaB : b.Arena)
    {ids others : List NodeId} {f : Forest} (first : a.Outline ids f)
    (second : b.Outline others (f.retag change)) : ∃ pairs, Pairing change a b ids others pairs := by
  induction first generalizing others with
  | none =>
    cases second
    exact ⟨[], rfl, rfl, by simp, by simp⟩
  | @element id rest tag below later own inside after ihInside ihAfter =>
    cases second with
    | @element other more _ _ _ ownToo insideToo afterToo =>
      obtain ⟨inner, innerPairs⟩ := ihInside insideToo
      obtain ⟨outer, outerPairs⟩ := ihAfter afterToo
      refine ⟨(id, other) :: inner ++ outer, ?_, ?_, ?_, ?_⟩
      · simp [innerPairs.left, outerPairs.left, arenaA.descendantsBelow id]
      · simp [innerPairs.right, outerPairs.right, arenaB.descendantsBelow other]
      · intro pair member
        rcases List.mem_append.mp member with front | back
        · rcases List.mem_cons.mp front with same | nested
          · rw [same, own, ownToo, Option.map_some]
          · exact innerPairs.tags pair nested
        · exact outerPairs.tags pair back
      · intro pair member
        rcases List.mem_append.mp member with front | back
        · rcases List.mem_cons.mp front with same | nested
          · exact .inl (by simp [same])
          · refine .inr ?_
            rcases innerPairs.parents pair nested with ⟨child, childToo⟩ | ⟨above, there, both⟩
            · exact ⟨(id, other), by simp,
                arenaA.memChildren.mp (List.mem_filter.mp child).1,
                arenaB.memChildren.mp (List.mem_filter.mp childToo).1⟩
            · exact ⟨above, by simp [there], both⟩
        · rcases outerPairs.parents pair back with ⟨listed, listedToo⟩ | ⟨above, there, both⟩
          · exact .inl ⟨List.mem_cons_of_mem _ listed, List.mem_cons_of_mem _ listedToo⟩
          · exact .inr ⟨above, List.mem_append_right _ there, both⟩

structure Renumbers (φ : NodeId → NodeId) (a b : Document) : Prop where
  elements : b.elements = a.elements.map φ
  tags : ∀ id ∈ a.elements, b.tag? (φ id) = a.tag? id
  parents : ∀ id ∈ a.elements, b.parent? (φ id) = (a.parent? id).map φ

structure Retags (change : Tag → Tag) (φ : NodeId → NodeId) (a b : Document) : Prop where
  elements : b.elements = a.elements.map φ
  tags : ∀ id ∈ a.elements, b.tag? (φ id) = (a.tag? id).map change
  parents : ∀ id ∈ a.elements, b.parent? (φ id) = (a.parent? id).map φ

theorem retagged {change : Tag → Tag} {a b : Document} (arenaA : a.Arena) (arenaB : b.Arena)
    (same : b.forest.bare = a.forest.bare.retag change) : ∃ φ, Retags change φ a b := by
  have first := (treeOfDocument arenaA).outline
  have second := (treeOfDocument arenaB).outline
  rw [arenaA.rootAlone] at first
  rw [arenaB.rootAlone, same] at second
  obtain ⟨pairs, pairing⟩ := first.pairing arenaA arenaB second
  have left : pairs.map Prod.fst = a.elements := by simp [pairing.left, elements, candidates]
  have right : pairs.map Prod.snd = b.elements := by simp [pairing.right, elements, candidates]
  have counterpart (id : NodeId) : ∃ other, id ∈ a.elements → (id, other) ∈ pairs := by
    by_cases listed : id ∈ a.elements
    · rw [← left] at listed
      obtain ⟨pair, member, own⟩ := List.mem_map.mp listed
      exact ⟨pair.2, fun _ => own ▸ member⟩
    · exact ⟨0, fun given => absurd given listed⟩
  choose φ paired using counterpart
  have own {pair : NodeId × NodeId} (member : pair ∈ pairs) : φ pair.1 = pair.2 := by
    have listed : pair.1 ∈ a.elements := left ▸ List.mem_map_of_mem member
    have nodup : (pairs.map Prod.fst).Nodup := left ▸ arenaA.elementsNodup
    exact congrArg Prod.snd (List.inj_on_of_nodup_map nodup (paired pair.1 listed) member rfl)
  refine ⟨φ, ?_, fun id listed => pairing.tags _ (paired id listed), fun id listed => ?_⟩
  · rw [← right, ← left, List.map_map]
    exact List.map_congr_left fun pair member => (own member).symm
  · rcases pairing.parents _ (paired id listed) with ⟨top, topToo⟩ | ⟨above, member, parent, parentToo⟩
    · simp only [List.mem_singleton] at top topToo
      rw [top, arenaA.rootParent, ← top, topToo, arenaB.rootParent]
      rfl
    · rw [parent, parentToo, Option.map_some, own member]

theorem renumbered {a b : Document} (arenaA : a.Arena) (arenaB : b.Arena)
    (same : b.forest.bare = a.forest.bare) : ∃ φ, Renumbers φ a b := by
  have kept : b.forest.bare = a.forest.bare.retag id := same.trans (Forest.retagId _).symm
  obtain ⟨φ, retags⟩ := retagged arenaA arenaB kept
  exact ⟨φ, retags.elements, fun x there => (retags.tags x there).trans Option.map_id_apply, retags.parents⟩

def enclosing (d : Document) : Option NodeId → List Tag
  | none => []
  | some parent => (parent :: d.ancestors parent).filterMap d.tag?

theorem Arena.enclosingAbove {d : Document} (arena : d.Arena) (id : NodeId) :
    d.enclosing (d.parent? id) = (d.ancestors id).filterMap d.tag? := by
  cases above : d.parent? id with
  | none => simp [enclosing, Arena.ancestorsTop above]
  | some parent => rw [arena.ancestorsChild above, enclosing]

/- In a forest that stands among the nodes every qualifier is resolved by the tags around it. -/
theorem standsNamespace {d : Document} (arena : d.Arena) (uncut : ∀ id : Nat, d.isCut id = false)
    {f : Forest} {parent : Option NodeId} {first : Nat}
    (stands : f.Stands d.nodes (d.enclosing parent) parent first) {id : Nat} (low : first ≤ id)
    (high : id < f.after first) {tag : Tag} {uri : Option String}
    (found : d.content? id = some (.element tag uri)) :
    uri = resolve? tag.qualifier (tag :: (d.ancestors id).filterMap d.tag?) := by
  induction f generalizing parent first with
  | nil => exact absurd high (Nat.not_lt.mpr low)
  | leaf l rest ih =>
    by_cases same : id = first
    · rw [same, content?, stands.1] at found
      cases found
    · exact ih stands.2 (by omega) high
  | element own children rest ihc ihr =>
    obtain ⟨here, inner, later⟩ := stands
    have above : d.parent? first = parent := by simp [parent?, uncut, here]
    have tagged : d.tag? first = some own := by simp [tag?, content?, here]
    have around : d.enclosing (some first) = own :: d.enclosing parent := by
      rw [← above, arena.enclosingAbove, enclosing, List.filterMap_cons_some tagged]
    by_cases same : id = first
    · subst same
      rw [content?, here] at found
      cases found
      rw [← arena.enclosingAbove, above]
    · by_cases inside : id < children.after (first + 1)
      · rw [← around] at inner
        exact ihc inner (by omega) inside
      · exact ihr later (by omega) high

/- The namespace of an attached element depends on the tags above it and on nothing else. -/
theorem Reached.namespaceLexical {d : Document} (reached : d.Reached) {id : NodeId}
    (attached : id ∈ d.elements) {tag : Tag} (tagged : d.tag? id = some tag) :
    d.namespace? id = resolve? tag.qualifier (tag :: (d.ancestors id).filterMap d.tag?) := by
  induction reached with
  | @parsed _ d ok =>
    have arena := (Reached.parsed ok).arena
    obtain ⟨f, _, placed⟩ := parseParts ok
    obtain ⟨stands, size⟩ := ofForestStands placed
    obtain ⟨uri, found⟩ := taggedContent tagged
    obtain ⟨node, there, _⟩ := Option.map_eq_some_iff.mp found
    have below : id < f.after 0 := size ▸ (Array.getElem?_eq_some_iff.mp there).1
    have own : d.namespace? id = uri := by simp [namespace?, found]
    rw [own]
    have alone : f.Stands d.nodes (d.enclosing none) none 0 := stands
    exact standsNamespace arena (ofForestUncut placed) alone (Nat.zero_le id) below found
  | removed before ok ih =>
    have lose := removeLoses before.arena ok
    have inside := (lose.arena before.arena).memElements.mp attached
    rw [lose.namespaceSame, lose.ancestorsSame before.arena inside.2, lose.tagSame]
    exact ih (lose.elementBefore before.arena attached) (lose.tagSame ▸ tagged)

namespace Renumbers

variable {a b : Document} {φ : NodeId → NodeId} (h : Renumbers φ a b) {id : NodeId}
  (attached : id ∈ a.elements)
include h attached

theorem inside : φ id ∈ b.elements := h.elements ▸ List.mem_map_of_mem attached

theorem attributeSame (name : String) : b.attribute? (φ id) name = a.attribute? id name := by
  unfold attribute?
  rw [h.tags id attached]

variable (arenaA : a.Arena) (arenaB : b.Arena)
include arenaA arenaB

theorem ancestorsMapped : b.ancestors (φ id) = (a.ancestors id).map φ := by
  induction id using arenaA.ancestorsInduction with
  | top id top =>
    have topToo := h.parents id attached
    rw [top] at topToo
    rw [Arena.ancestorsTop top, Arena.ancestorsTop topToo, List.map_nil]
  | child id parent own ih =>
    have parentToo := h.parents id attached
    rw [own] at parentToo
    have there := arenaA.elementAbove attached ((arenaA.memAncestorsChild own).mpr (.inl rfl))
    rw [arenaA.ancestorsChild own, arenaB.ancestorsChild parentToo, List.map_cons, ih there]

theorem aboveMapped {x : NodeId} (above : x ∈ a.ancestors id) : φ x ∈ b.ancestors (φ id) := by
  rw [h.ancestorsMapped attached arenaA arenaB]
  exact List.mem_map_of_mem above

omit arenaA arenaB in
theorem namespaceSame (reachedA : a.Reached) (reachedB : b.Reached) :
    b.namespace? (φ id) = a.namespace? id := by
  have arena := reachedA.arena
  obtain ⟨tag, tagged⟩ := Option.isSome_iff_exists.mp (arena.memElements.mp attached).1
  have taggedToo := (h.tags id attached).trans tagged
  rw [reachedA.namespaceLexical attached tagged,
    reachedB.namespaceLexical (h.inside attached) taggedToo,
    h.ancestorsMapped attached arena reachedB.arena, List.filterMap_map]
  have tags : (a.ancestors id).filterMap (b.tag? ∘ φ) = (a.ancestors id).filterMap a.tag? :=
    List.filterMap_congr fun x above => h.tags x (arena.elementAbove attached above)
  rw [tags]

end Renumbers
end Document
end EdmxPruning
