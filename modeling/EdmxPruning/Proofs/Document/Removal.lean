import EdmxPruning.Proofs.Document.Arena

/-! Removals only cut nodes: the one that is removed and perhaps the blank text before it. Reading
and then removing, in any order and with any numbers, leaves a tree. -/
namespace EdmxPruning
open Markup

namespace Document

inductive Reached : Document → Prop where
  | parsed {text d} (ok : parse text = .ok d) : Reached d
  | removed {d d' id} (before : Reached d) (ok : d.remove? id = some d') : Reached d'

theorem okWith {ε α : Type} {x : Except ε α} {p : α → Bool} (h : x.toOption.any p = true) :
    ∃ a, x = .ok a ∧ p a = true := by
  cases x with
  | error e => cases h
  | ok a => exact ⟨a, rfl, h⟩

theorem parseParts {text : String} {d : Document} (ok : parse text = .ok d) :
    ∃ f, Forest.read text = .ok f ∧ ofForest? f = some d := by
  unfold parse at ok
  cases read : Forest.read text with
  | error e => rw [read] at ok; cases ok
  | ok f =>
    cases placed : ofForest? f with
    | none => simp [read, placed, bind, Except.bind] at ok
    | some own =>
      simp only [read, placed, bind, Except.bind, Except.ok.injEq] at ok
      exact ⟨f, rfl, by rw [placed, ok]⟩

section Written

def ofChars? (cs : List Char) : Option Document :=
  let trimmed := Text.afterByteOrderMark cs
  (Forest.ofScan (run (trimmed.length + 1) [] trimmed)).toOption.bind ofForest?

/- Where the characters of a text are at hand, nothing has to be decoded to read it. -/
theorem parseChars {text : String} {cs : List Char} (chars : text.toList = cs) :
    (parse text).toOption = ofChars? cs := by
  have reads : ofChars? cs = (Forest.read text).toOption.bind ofForest? := by
    rw [← chars]
    rfl
  rw [reads]
  unfold parse
  cases Forest.read text with
  | error e => rfl
  | ok forest =>
    show _ = ofForest? forest
    simp only [bind, Except.bind]
    cases ofForest? forest <;> rfl

theorem charsOf {text : String} {cs : List Char} (written : text = .ofList cs) :
    text.toList = cs := by
  rw [written, String.toList_ofList]

theorem charsAppend {a b : String} {as bs : List Char} (first : a.toList = as)
    (second : b.toList = bs) : (a ++ b).toList = as ++ bs := by
  rw [String.toList_append, first, second]

end Written

theorem isCutCutNode (d : Document) (id x : Nat) :
    (d.cutNode id).isCut x = true ↔ d.isCut x = true ∨ (x = id ∧ id < d.nodes.size) := by
  unfold cutNode isCut
  simp only [Array.getD_eq_getD_getElem?, Array.getElem?_setIfInBounds, ← d.sizes]
  by_cases same : id = x
  · subst same
    by_cases below : id < d.cuts.size <;> simp [below]
  · rw [if_neg same]
    constructor
    · exact .inl
    · intro given
      rcases given with cut | ⟨other, _⟩
      · exact cut
      · exact absurd other.symm same

theorem parentParts {d : Document} {id parent : NodeId} :
    d.parent? id = some parent ↔ d.isCut id = false ∧ d.originalParent? id = some parent := by
  unfold parent? originalParent?
  cases d.isCut id <;> simp

theorem memChildren {d : Document} {parent child : NodeId} :
    child ∈ d.children parent ↔ child ∈ d.originalChildren parent ∧ d.isCut child = false := by
  unfold children originalChildren
  rw [List.mem_filter, Bool.not_eq_true']

theorem Arena.memChildren {d : Document} (arena : d.Arena) {parent child : NodeId} :
    child ∈ d.children parent ↔ d.parent? child = some parent := by
  rw [Document.memChildren, parentParts, arena.linked, and_comm]

theorem originalParentBelow {d : Document} {id parent : NodeId}
    (h : d.originalParent? id = some parent) : id < d.nodes.size := by
  obtain ⟨node, found, _⟩ := Option.bind_eq_some_iff.mp h
  exact (Array.getElem?_eq_some_iff.mp found).1

theorem elementNotBlank {d : Document} {id : NodeId} (element : d.isElement id = true) :
    d.isBlankText id = false := by
  unfold isElement tag? at element
  unfold isBlankText
  cases shape : d.content? id with
  | none => rfl
  | some own =>
    cases own with
    | element tag uri => rfl
    | leaf l => simp [shape] at element

theorem beforeMem {id x : NodeId} {ids : List NodeId} (h : before? id ids = some x) : x ∈ ids := by
  fun_induction before? id ids with
  | case1 first rest => cases h; exact List.mem_cons_self
  | case2 first second rest _ ih => exact List.mem_cons_of_mem _ (ih h)
  | case3 => cases h

theorem indentParts {d : Document} {parent id x : NodeId} (h : d.indent? parent id = some x) :
    x ∈ d.children parent ∧ d.isBlankText x = true := by
  obtain ⟨found, blank⟩ := Option.filter_eq_some_iff.mp h
  exact ⟨beforeMem found, blank⟩

/- What is left of a document: the same nodes, and no node is cut but those that were, those that
may go, and blank texts. -/
structure Loses (d d' : Document) (gone : NodeId → Prop) : Prop where
  nodes : d'.nodes = d.nodes
  topLevel : d'.topLevel = d.topLevel
  root : d'.root = d.root
  defaultNamespace : d'.defaultNamespace = d.defaultNamespace
  kept : ∀ id : Nat, d.isCut id = true → d'.isCut id = true
  lost : ∀ id : Nat, d'.isCut id = true → d.isCut id = true ∨ gone id ∨ d.isBlankText id = true
  parents : ∀ id : Nat, d'.isCut id = true → d.isCut id = true ∨ ∃ p, d.originalParent? id = some p

theorem removeCases {d d' : Document} {id : NodeId} (ok : d.remove? id = some d') :
    ∃ parent, d.parent? id = some parent ∧
      ((d.indent? parent id = none ∧ d' = d.cutNode id) ∨
        ∃ indent, d.indent? parent id = some indent ∧ d' = (d.cutNode id).cutNode indent) := by
  unfold remove? at ok
  cases above : d.parent? id with
  | none => rw [above] at ok; cases ok
  | some parent =>
    rw [above] at ok
    refine ⟨parent, rfl, ?_⟩
    cases indent : d.indent? parent id with
    | none => simp only [indent] at ok; cases ok; exact .inl ⟨rfl, rfl⟩
    | some x => simp only [indent] at ok; cases ok; exact .inr ⟨x, rfl, rfl⟩

theorem removeCuts {d d' : Document} {id : NodeId} (arena : d.Arena) (ok : d.remove? id = some d') :
    ∃ parent, d.parent? id = some parent ∧ ∀ x : Nat, d'.isCut x = true ↔
      d.isCut x = true ∨ x = id ∨ d.indent? parent id = some x := by
  obtain ⟨parent, above, shape⟩ := removeCases ok
  refine ⟨parent, above, fun x => ?_⟩
  have below : id < d.nodes.size := originalParentBelow (parentParts.mp above).2
  rcases shape with ⟨none, same⟩ | ⟨indent, found, same⟩
  · rw [same, isCutCutNode, none]
    simp [below]
  · have inside := (arena.memChildren).mp (indentParts found).1
    have indentBelow : indent < (d.cutNode id).nodes.size :=
      originalParentBelow (parentParts.mp inside).2
    rw [same, isCutCutNode, isCutCutNode, found, Option.some.injEq]
    constructor
    · intro given
      rcases given with (cut | ⟨own, _⟩) | ⟨own, _⟩
      · exact .inl cut
      · exact .inr (.inl own)
      · exact .inr (.inr own.symm)
    · intro given
      rcases given with cut | own | own
      · exact .inl (.inl cut)
      · exact .inl (.inr ⟨own, below⟩)
      · exact .inr ⟨own.symm, indentBelow⟩

theorem removeLoses {d d' : Document} {id : NodeId} (arena : d.Arena)
    (ok : d.remove? id = some d') : d.Loses d' (· = id) := by
  obtain ⟨parent, above, cuts⟩ := removeCuts arena ok
  have own := (parentParts.mp above).2
  have same : d'.nodes = d.nodes ∧ d'.topLevel = d.topLevel ∧ d'.root = d.root ∧
      d'.defaultNamespace = d.defaultNamespace := by
    obtain ⟨_, _, ⟨_, rfl⟩ | ⟨_, _, rfl⟩⟩ := removeCases ok <;> exact ⟨rfl, rfl, rfl, rfl⟩
  refine ⟨same.1, same.2.1, same.2.2.1, same.2.2.2, fun x h => (cuts x).mpr (.inl h),
    fun x h => ?_, fun x h => ?_⟩
  · rcases (cuts x).mp h with old | now | indent
    · exact .inl old
    · exact .inr (.inl now)
    · exact .inr (.inr (indentParts indent).2)
  · rcases (cuts x).mp h with old | now | indent
    · exact .inl old
    · exact .inr ⟨parent, now ▸ own⟩
    · exact .inr ⟨parent, (parentParts.mp (arena.memChildren.mp (indentParts indent).1)).2⟩

theorem removeDetaches {d d' : Document} {id : NodeId} (arena : d.Arena)
    (ok : d.remove? id = some d') : d'.parent? id = none := by
  obtain ⟨parent, _, cuts⟩ := removeCuts arena ok
  unfold parent?
  rw [(cuts id).mpr (.inr (.inl rfl)), if_pos rfl]

namespace Loses

variable {d d' d'' : Document} {gone : NodeId → Prop}

theorem refl (d : Document) (gone : NodeId → Prop) : d.Loses d gone :=
  ⟨rfl, rfl, rfl, rfl, fun _ => id, fun _ => .inl, fun _ => .inl⟩

theorem contentSame (h : d.Loses d' gone) : d'.content? = d.content? := by
  funext id; unfold content?; rw [h.nodes]

theorem tagSame (h : d.Loses d' gone) : d'.tag? = d.tag? := by
  funext id; unfold tag?; rw [h.contentSame]

theorem isElementSame (h : d.Loses d' gone) : d'.isElement = d.isElement := by
  funext id; unfold isElement; rw [h.tagSame]

theorem isBlankTextSame (h : d.Loses d' gone) : d'.isBlankText = d.isBlankText := by
  funext id; unfold isBlankText; rw [h.contentSame]

theorem namespaceSame (h : d.Loses d' gone) : d'.namespace? = d.namespace? := by
  funext id; unfold namespace?; rw [h.contentSame]

theorem attributeSame (h : d.Loses d' gone) : d'.attribute? = d.attribute? := by
  funext id name; unfold attribute?; rw [h.tagSame]

theorem originalParentSame (h : d.Loses d' gone) : d'.originalParent? = d.originalParent? := by
  funext id; unfold originalParent?; rw [h.nodes]

theorem originalChildrenSame (h : d.Loses d' gone) :
    d'.originalChildren = d.originalChildren := by
  funext id; unfold originalChildren; rw [h.nodes]

theorem trans (first : d.Loses d' gone) (second : d'.Loses d'' gone) : d.Loses d'' gone where
  nodes := second.nodes.trans first.nodes
  topLevel := second.topLevel.trans first.topLevel
  root := second.root.trans first.root
  defaultNamespace := second.defaultNamespace.trans first.defaultNamespace
  kept id cut := second.kept id (first.kept id cut)
  lost id cut := by
    rcases second.lost id cut with old | now | blank
    · exact first.lost id old
    · exact .inr (.inl now)
    · exact .inr (.inr (first.isBlankTextSame ▸ blank))
  parents id cut := by
    rcases second.parents id cut with old | above
    · exact first.parents id old
    · exact .inr (first.originalParentSame ▸ above)

theorem weaken {more : NodeId → Prop} (h : d.Loses d' gone) (wider : ∀ id, gone id → more id) :
    d.Loses d' more where
  nodes := h.nodes
  topLevel := h.topLevel
  root := h.root
  defaultNamespace := h.defaultNamespace
  kept := h.kept
  lost id cut := (h.lost id cut).imp_right (.imp_left (wider id))
  parents := h.parents

theorem parentBefore (h : d.Loses d' gone) {id parent : NodeId} (above : d'.parent? id = some parent) :
    d.parent? id = some parent := by
  obtain ⟨uncut, own⟩ := parentParts.mp above
  refine parentParts.mpr ⟨Bool.eq_false_iff.mpr fun cut => ?_, h.originalParentSame ▸ own⟩
  rw [h.kept id cut] at uncut
  cases uncut

theorem detachedAfter (h : d.Loses d' gone) {id : NodeId} (detached : d.parent? id = none) :
    d'.parent? id = none := by
  cases above : d'.parent? id with
  | none => rfl
  | some parent => rw [h.parentBefore above] at detached; cases detached

theorem arena (h : d.Loses d' gone) (arena : d.Arena) : d'.Arena where
  linked := h.originalParentSame ▸ h.originalChildrenSame ▸ arena.linked
  later := h.originalChildrenSame ▸ arena.later
  ascending := h.originalChildrenSame ▸ arena.ascending
  parents := h.originalChildrenSame ▸ h.isElementSame ▸ arena.parents
  topLevel := h.topLevel ▸ h.nodes ▸ h.originalParentSame ▸ arena.topLevel
  topAscending := h.topLevel ▸ arena.topAscending
  rootOnTop := h.topLevel ▸ h.root ▸ arena.rootOnTop
  rootElement := h.root ▸ h.isElementSame ▸ arena.rootElement
  rootOnly := h.topLevel ▸ h.isElementSame ▸ h.root ▸ arena.rootOnly
  cutBelow id cut := by
    rw [h.originalParentSame]
    rcases h.parents id cut with old | above
    · exact arena.cutBelow id old
    · exact above

end Loses

theorem Reached.arena {d : Document} (reached : d.Reached) : d.Arena := by
  induction reached with
  | parsed ok =>
    obtain ⟨f, read, placed⟩ := parseParts ok
    exact arenaOfForest placed (readTopElements read)
  | removed _ ok ih => exact (removeLoses ih ok).arena ih

end Document
end EdmxPruning
