import EdmxPruning.Proofs.Document.Ancestry
import EdmxPruning.Proofs.Markup.Written

/-! Reading undoes writing. All that stands in a document was scanned once, and removals add
nothing, so what is written can be read, and it is read as the tree that was written. -/
namespace EdmxPruning
open Markup

namespace Markup

theorem runScanned {fuel : Nat} {read : List Token} {cs : List Char}
    (before : ∀ t ∈ read, t.Scanned) : ∀ t ∈ (run fuel read cs).tokens, t.Scanned := by
  induction fuel generalizing read cs with
  | zero => simpa [run] using before
  | succ fuel ih =>
    unfold run
    cases head : scanHead cs with
    | done => simpa using before
    | fault e => simpa using before
    | token t rest =>
      apply ih
      intro u member
      rcases List.mem_cons.mp member with same | earlier
      · exact same ▸ ⟨cs, rest, head⟩
      · exact before u earlier

def Tag.Scanned (tag : Tag) : Prop := ∃ t : Token, t.Scanned ∧ t.Opens tag

theorem readScanned {text : String} {f : Forest} (ok : Forest.read text = .ok f) :
    f.Each Tag.Scanned fun l => (Token.leaf l).Scanned := by
  have scanned : ∀ t ∈ (scan text).tokens, t.Scanned := runScanned (by simp)
  exact readEach ok (fun t member tag opens => ⟨t, scanned t member, opens⟩)
    fun l member => scanned _ member

end Markup

def Content.isText : Content → Bool
  | .element .. => false
  | .leaf l => l.isText

def Content.Scanned : Content → Prop
  | .element tag _ => tag.Scanned
  | .leaf l => (Token.leaf l).Scanned

theorem numberScanned {f : Forest} (h : f.Each Tag.Scanned fun l => (Token.leaf l).Scanned)
    (enclosing : List Tag) (parent : Option NodeId) {nodes : Array Node}
    (before : ∀ node ∈ nodes, node.content.Scanned) :
    ∀ node ∈ f.number enclosing parent nodes, node.content.Scanned := by
  have pushed {nodes : Array Node} {own : Node} (before : ∀ node ∈ nodes, node.content.Scanned)
      (scanned : own.content.Scanned) : ∀ node ∈ nodes.push own, node.content.Scanned := by
    intro node member
    rcases Array.mem_push.mp member with earlier | same
    · exact before node earlier
    · exact same ▸ scanned
  induction f generalizing enclosing parent nodes with
  | nil => exact before
  | leaf l rest ih => exact ih h.2 enclosing parent (pushed before h.1)
  | element tag children rest ihc ihr =>
    exact ihr h.2.2 _ _ (ihc h.2.1 _ _ (pushed before h.1))

namespace Document

theorem Reached.scanned {d : Document} (reached : d.Reached) {id : NodeId} {content : Content}
    (found : d.content? id = some content) : content.Scanned := by
  induction reached with
  | parsed ok =>
    obtain ⟨f, read, placed⟩ := parseParts ok
    obtain ⟨_, nodes, _, _⟩ := ofForestParts placed
    obtain ⟨node, there, same⟩ := Option.map_eq_some_iff.mp found
    rw [nodes] at there
    exact same ▸ numberScanned (readScanned read) [] none (by simp) node
      (Array.mem_of_getElem? there)
  | removed before ok ih =>
    rw [(removeLoses before.arena ok).contentSame] at found
    exact ih found

inductive Tree (d : Document) : List NodeId → Forest → Prop where
  | none : Tree d [] .nil
  | leaf {id rest l later} (own : d.content? id = some (.leaf l)) (after : Tree d rest later) :
      Tree d (id :: rest) (.leaf l later)
  | element {id rest tag uri below later} (own : d.content? id = some (.element tag uri))
      (inside : Tree d (d.children id) below) (after : Tree d rest later) :
      Tree d (id :: rest) (.element tag below later)

theorem Tree.unique {d : Document} {ids : List NodeId} {f g : Forest} (first : d.Tree ids f)
    (second : d.Tree ids g) : f = g := by
  induction first generalizing g with
  | none => cases second; rfl
  | leaf own after ih =>
    cases second with
    | leaf other later => cases own.symm.trans other; rw [ih later]
    | element other => cases own.symm.trans other
  | element own inside after ihInside ihAfter =>
    cases second with
    | leaf other => cases own.symm.trans other
    | element other below later =>
      cases own.symm.trans other
      rw [ihInside below, ihAfter later]

theorem forestWithinNoText {d : Document} {depth : Nat} {ids : List NodeId}
    (noText : ∀ id ∈ ids, ∀ content ∈ d.content? id, content.isText = false) :
    (d.forestWithin (depth + 1) ids).NoTopText := by
  induction ids with
  | nil => trivial
  | cons id rest ih =>
    have later := ih fun x member => noText x (List.mem_cons_of_mem _ member)
    have own := noText id List.mem_cons_self
    rw [forestWithinCons]
    cases shape : d.content? id with
    | none => exact later
    | some content =>
      cases content with
      | element tag uri => exact later
      | leaf l => exact ⟨own _ shape, later⟩

theorem forestWithinTop (d : Document) (depth : Nat) (ids : List NodeId) :
    (d.forestWithin (depth + 1) ids).topElements = (ids.filter d.isElement).length := by
  induction ids with
  | nil => rfl
  | cons id rest ih =>
    rw [forestWithinCons, List.filter_cons]
    cases shape : d.content? id with
    | none => simp [isElement, tag?, shape, ih]
    | some content =>
      cases content with
      | element tag uri => simp [isElement, tag?, shape, Forest.topElements, ih]
      | leaf l => simp [isElement, tag?, shape, Forest.topElements, ih]

section Tree

variable {d : Document} (arena : d.Arena)
include arena

theorem forestWithinEach {tags : Tag → Prop} {leaves : Leaf → Prop}
    (elements : ∀ id ∈ d.elements, ∀ tag ∈ d.tag? id, tags tag)
    (others : ∀ id l, d.content? id = some (.leaf l) → leaves l) {depth : Nat} {ids : List NodeId}
    (inside : ∀ id ∈ ids, d.isElement id = true → d.Attached id) :
    (d.forestWithin depth ids).Each tags leaves := by
  induction depth generalizing ids with
  | zero => trivial
  | succ depth ih =>
    induction ids with
    | nil => trivial
    | cons id rest next =>
      have later := next fun x member => inside x (List.mem_cons_of_mem _ member)
      rw [forestWithinCons]
      cases shape : d.content? id with
      | none => exact later
      | some content =>
        cases content with
        | leaf l => exact ⟨others id l shape, later⟩
        | element tag uri =>
          have tagged : d.tag? id = some tag := by simp [tag?, shape]
          have element : d.isElement id = true := by simp [isElement, tagged]
          have attached := inside id List.mem_cons_self element
          refine ⟨elements id (arena.memElements.mpr ⟨element, attached⟩) tag tagged, ?_, later⟩
          apply ih
          intro child member _
          exact .child attached (arena.memChildren.mp member)

/- Children come after their parents, so the depth is enough for all of them. -/
theorem treeWithin {depth : Nat} {ids : List NodeId}
    (enough : ∀ id : Nat, id ∈ ids → id < d.nodes.size ∧ d.nodes.size ≤ id + depth) :
    d.Tree ids (d.forestWithin depth ids) := by
  -- levels first, then the siblings on each: only the way down takes from the depth
  induction depth generalizing ids with
  | zero =>
    cases ids with
    | nil => exact .none
    | cons id rest =>
      obtain ⟨below, above⟩ := enough id List.mem_cons_self
      exact absurd below (Nat.not_lt.mpr above)
  | succ depth ih =>
    induction ids with
    | nil => exact .none
    | cons id rest next =>
      have later := next fun x member => enough x (List.mem_cons_of_mem _ member)
      obtain ⟨below, above⟩ := enough id List.mem_cons_self
      rw [forestWithinCons]
      cases shape : d.content? id with
      | none => simp [content?, below] at shape
      | some content =>
        cases content with
        | leaf l => exact .leaf shape later
        | element tag uri =>
          refine .element shape (ih ?_) later
          intro child member
          have parent := arena.memChildren.mp member
          have after := arena.parentBefore parent
          exact ⟨originalParentBelow (parentParts.mp parent).2, by omega⟩

theorem treeOfDocument : d.Tree d.topLevel d.forest := by
  apply treeWithin arena
  intro id member
  exact ⟨((arena.topLevel id).mp member).1, Nat.le_add_left _ _⟩

theorem oneTopElement : (d.topLevel.filter d.isElement).length = 1 := by
  have only : ∀ id ∈ d.topLevel.filter d.isElement, id = d.root := by
    intro id member
    obtain ⟨listed, element⟩ := List.mem_filter.mp member
    exact arena.rootOnly id listed element
  have root : d.root ∈ d.topLevel.filter d.isElement :=
    List.mem_filter.mpr ⟨arena.rootOnTop, arena.rootElement⟩
  have ascending := arena.topAscending.filter d.isElement
  cases shape : d.topLevel.filter d.isElement with
  | nil => simp [shape] at root
  | cons first rest =>
    cases rest with
    | nil => rfl
    | cons second others =>
      have same : first = second := by
        rw [only first (by simp [shape]), only second (by simp [shape])]
      rw [shape, List.pairwise_cons] at ascending
      have less := ascending.1 second List.mem_cons_self
      exact absurd less (by rw [same]; exact Nat.lt_irrefl second)

theorem Arena.rootAlone : d.topLevel.filter d.isElement = [d.root] := by
  obtain ⟨only, shape⟩ := List.length_eq_one_iff.mp (oneTopElement arena)
  have listed : d.root ∈ d.topLevel.filter d.isElement :=
    List.mem_filter.mpr ⟨arena.rootOnTop, arena.rootElement⟩
  rw [shape] at listed ⊢
  rw [List.mem_singleton.mp listed]

theorem forestDepth : ∃ depth, d.nodes.size = depth + 1 := by
  apply Nat.exists_eq_succ_of_ne_zero
  have below := ((arena.topLevel d.root).mp arena.rootOnTop).1
  exact Nat.ne_of_gt (Nat.zero_lt_of_lt below)

end Tree

theorem taggedContent {d : Document} {id : NodeId} {tag : Tag} (tagged : d.tag? id = some tag) :
    ∃ uri, d.content? id = some (.element tag uri) := by
  unfold tag? at tagged
  split at tagged
  · cases tagged
    exact ⟨_, by assumption⟩
  · cases tagged

theorem forestWritable {d : Document} (reached : d.Reached)
    (plain : ∀ id ∈ d.elements, ∀ tag ∈ d.tag? id, tag.Plain) :
    d.forest.Each Tag.Writable Leaf.Writable := by
  have arena := reached.arena
  apply forestWithinEach arena
  · intro id attached tag tagged
    obtain ⟨uri, found⟩ := taggedContent tagged
    obtain ⟨t, scanned, opens⟩ := reached.scanned found
    exact scannedWritable scanned opens (plain id attached tag tagged)
  · intro id l found
    exact scannedLeaf (reached.scanned found)
  · intro id listed element
    rw [arena.rootOnly id listed element]
    exact .root

theorem standsForest {d : Document} {f : Forest} {enclosing : List Tag} {parent : Option NodeId}
    {first depth : Nat} (stands : f.Stands d.nodes enclosing parent first)
    (uncut : ∀ id : Nat, d.isCut id = false) (enough : first + depth ≥ f.after first) :
    d.forestWithin depth (f.roots first) = f := by
  induction f generalizing enclosing parent first depth with
  | nil => cases depth <;> rfl
  | leaf l rest ih =>
    have grown := Forest.afterGrows rest (first + 1)
    simp only [Forest.after] at enough
    obtain ⟨depth, same⟩ : ∃ n, depth = n + 1 := Nat.exists_eq_succ_of_ne_zero (by omega)
    subst same
    have here : d.content? first = some (.leaf l) := by simp [content?, stands.1]
    have later : d.forestWithin (depth + 1) (rest.roots (first + 1)) = rest :=
      ih stands.2 (by omega)
    simp [Forest.roots, forestWithinCons, here, later]
  | element tag children rest ihc ihr =>
    have grown := Forest.afterGrows children (first + 1)
    have grownMore := Forest.afterGrows rest (children.after (first + 1))
    simp only [Forest.after] at enough
    obtain ⟨depth, same⟩ : ∃ n, depth = n + 1 := Nat.exists_eq_succ_of_ne_zero (by omega)
    subst same
    obtain ⟨own, inner, outer⟩ := stands
    have here : ∃ uri, d.content? first = some (.element tag uri) := by simp [content?, own]
    obtain ⟨uri, here⟩ := here
    have below : d.children first = children.roots (first + 1) := by
      simp [Document.children, own, uncut]
    have inside : d.forestWithin depth (children.roots (first + 1)) = children :=
      ihc inner (by omega)
    have later : d.forestWithin (depth + 1) (rest.roots (children.after (first + 1))) = rest :=
      ihr outer (by omega)
    simp [Forest.roots, forestWithinCons, here, below, inside, later]

theorem forestOfForest {d : Document} {f : Forest} (placed : ofForest? f = some d) :
    d.forest = f := by
  obtain ⟨_, _, top, _⟩ := ofForestParts placed
  obtain ⟨stands, size⟩ := ofForestStands placed
  unfold forest
  rw [top]
  exact standsForest stands (ofForestUncut placed) (by rw [size, Nat.zero_add])

theorem placedOfTop {f : Forest} (top : f.topElements ≠ 0) : ∃ d, ofForest? f = some d := by
  have root (first : Nat) : (f.rootElement? first).isSome = true := by
    induction f generalizing first with
    | nil => exact absurd rfl top
    | leaf l rest ih => exact ih top (first + 1)
    | element => rfl
  obtain ⟨id, found⟩ := Option.isSome_iff_exists.mp (root 0)
  unfold ofForest?
  simp [found]

theorem readsWritten {d : Document} (reached : d.Reached)
    (plain : ∀ id ∈ d.elements, ∀ tag ∈ d.tag? id, tag.Plain)
    (noText : ∀ id ∈ d.topLevel, ∀ content ∈ d.content? id, content.isText = false) :
    ∃ d', parse d.toXml = .ok d' ∧ d'.forest = d.forest.written ∧ d'.toXml = d.toXml := by
  have arena := reached.arena
  obtain ⟨depth, size⟩ := forestDepth arena
  have shape : d.forest = d.forestWithin (depth + 1) d.topLevel := by rw [forest, size]
  have noTopText : d.forest.NoTopText := shape ▸ forestWithinNoText noText
  have one : d.forest.topElements = 1 := by
    rw [shape, forestWithinTop, oneTopElement arena]
  have read : Forest.read d.toXml = .ok d.forest.written :=
    Forest.readsWritten (forestWritable reached plain) noTopText (Nat.le_of_eq one)
  obtain ⟨d', placed⟩ : ∃ d', ofForest? d.forest.written = some d' := by
    apply placedOfTop
    rw [Forest.writtenTopElements, one]
    decide
  have same := forestOfForest placed
  refine ⟨d', by simp [parse, read, placed, bind, Except.bind], same, ?_⟩
  -- the texts that were joined are the same characters, so both are written alike
  show markup (.declaration Forest.heading :: d'.forest.lines) = _
  rw [same, Forest.headedMarkup noTopText]
  rfl

end Document

theorem parseUndoesWriting {d : Document} (reached : d.Reached)
    (plain : ∀ id ∈ d.elements, ∀ tag ∈ d.tag? id, tag.Plain)
    (noText : ∀ id ∈ d.topLevel, ∀ content ∈ d.content? id, content.isText = false) :
    d.Tree d.topLevel d.forest ∧ ∃ d', Document.parse d.toXml = .ok d' ∧
      d'.Tree d'.topLevel d.forest.written ∧ d'.toXml = d.toXml := by
  obtain ⟨d', parsed, same, alike⟩ := Document.readsWritten reached plain noText
  refine ⟨Document.treeOfDocument reached.arena, d', parsed, ?_, alike⟩
  rw [← same]
  exact Document.treeOfDocument (Document.Reached.parsed parsed).arena

theorem readsTextsAsOne : ∃ d d' : Document, d.Reached ∧ d.forest.written ≠ d.forest ∧
    Document.parse d.toXml = .ok d' ∧ d'.Tree d'.topLevel d.forest.written := by
  obtain ⟨whole, read, cuts⟩ := Document.okWith (x := Document.parse "<a>x<b/>y</a>")
    (p := fun whole => (whole.remove? 2).any fun d : Document => decide
      ((∀ id ∈ d.elements, ∀ tag ∈ d.tag? id, tag.Plain) ∧
        (∀ id ∈ d.topLevel, ∀ content ∈ d.content? id, content.isText = false) ∧
        d.forest.written ≠ d.forest))
    (by decide +kernel)
  obtain ⟨d, removed, facts⟩ := (Option.any_eq_true _ _).mp cuts
  obtain ⟨plain, noText, other⟩ := of_decide_eq_true facts
  have reached : d.Reached := .removed (.parsed read) removed
  obtain ⟨_, d', parsed, tree, _⟩ := parseUndoesWriting reached plain noText
  exact ⟨d, d', reached, other, parsed, tree⟩

end EdmxPruning
