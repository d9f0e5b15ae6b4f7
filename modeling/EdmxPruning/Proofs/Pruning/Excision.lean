import EdmxPruning.Proofs.Document.Writing
import EdmxPruning.Proofs.Pruning.Detachment

/-! What a removal does to the text. A node that is taken out leaves a gap in the tags of its parent, and
on the way up from there the text around the gap only grows. -/
namespace EdmxPruning
open Markup

theorem writtenAround {write writeLeft : NodeId → List Token} {ids : List NodeId} {id : NodeId}
    (listed : id ∈ ids) (nodup : ids.Nodup) (others : ∀ x ∈ ids, x ≠ id → writeLeft x = write x) :
    ∃ a b, ids.flatMap write = a ++ write id ++ b ∧ ids.flatMap writeLeft = a ++ writeLeft id ++ b := by
  obtain ⟨before, after, split⟩ := List.append_of_mem listed
  subst split
  obtain ⟨_, back, apart⟩ := List.nodup_append.mp nodup
  have first : before.flatMap writeLeft = before.flatMap write := by
    refine List.flatMap_congr fun x member => others x (List.mem_append_left _ member) ?_
    exact apart x member id List.mem_cons_self
  have last : after.flatMap writeLeft = after.flatMap write := by
    refine List.flatMap_congr fun x member => ?_
    refine others x (List.mem_append_right _ (List.mem_cons_of_mem _ member)) fun same => ?_
    exact (List.nodup_cons.mp back).1 (same ▸ member)
  exact ⟨before.flatMap write, after.flatMap write, by simp, by simp [first, last]⟩

namespace Document

variable {d left : Document} {x parent : NodeId} {before taken after : List NodeId}

namespace Takes

theorem tagSame (takes : d.Takes left x parent before taken after) (y : NodeId) :
    left.tag? y = d.tag? y := by
  unfold tag?
  rw [takes.contents]

variable (takes : d.Takes left x parent before taken after) (arena : d.Arena)
include takes arena

/- Below nodes that are not on the way to the parent the tree is the same. -/
theorem treeSame {ids : List NodeId} {f : Forest} (tree : d.Tree ids f)
    (aside : ∀ y ∈ ids, y ≠ parent ∧ y ∉ d.ancestors parent) : left.Tree ids f := by
  induction tree with
  | none => exact .none
  | @leaf id rest _ _ own after ih =>
    exact .leaf ((takes.contents id).trans own) (ih fun y later => aside y (List.mem_cons_of_mem _ later))
  | @element id rest _ _ _ _ own inside after ihInside ihAfter =>
    obtain ⟨other, apart⟩ := aside id List.mem_cons_self
    have below : ∀ y ∈ d.children id, y ≠ parent ∧ y ∉ d.ancestors parent := by
      intro y listed
      have above := arena.memChildren.mp listed
      constructor
      · intro same
        rw [same] at above
        exact apart ((arena.memAncestorsChild above).mpr (.inl rfl))
      · exact fun higher => apart (arena.parentOfAncestor higher above)
    refine .element ((takes.contents id).trans own) ?_
      (ihAfter fun y later => aside y (List.mem_cons_of_mem _ later))
    rw [takes.children id other]
    exact ihInside below

variable (arenaLeft : left.Arena)
include arenaLeft

theorem tokensSame {y : NodeId} (below : y < d.nodes.size)
    (aside : y ≠ parent ∧ y ∉ d.ancestors parent) : left.tokensOf y = d.tokensOf y := by
  have tree : d.Tree [y] (d.forestWithin d.nodes.size [y]) :=
    treeWithin arena fun z listed => by
      rw [List.mem_singleton.mp listed]
      exact ⟨below, Nat.le_add_left _ _⟩
  refine tokensOfTree arenaLeft (takes.treeSame arena tree fun z listed => ?_)
  rw [List.mem_singleton.mp listed]
  exact aside

/- On the way up from the parent the text before and after stays the same. -/
theorem around {y : NodeId} (attached : d.Attached y) (way : y = parent ∨ y ∈ d.ancestors parent) :
    ∃ a b, d.tokens = a ++ d.tokensOf y ++ b ∧ left.tokens = a ++ left.tokensOf y ++ b := by
  induction attached with
  | root =>
    have others : ∀ z ∈ d.topLevel, z ≠ d.root →
        lineBreak :: left.tokensOf z = lineBreak :: d.tokensOf z := by
      intro z listed other
      have leaf (element : d.isElement z = true) : False := other (arena.rootOnly z listed element)
      refine congrArg _ (takes.tokensSame arena arenaLeft ((arena.topLevel z).mp listed).1 ⟨?_, ?_⟩)
      · exact fun same => leaf (same ▸ arena.parentElement takes.above)
      · exact fun higher => leaf (arena.ancestorElement higher)
    have nodup : d.topLevel.Nodup := arena.topAscending.imp Nat.ne_of_lt
    obtain ⟨a, b, whole, rest⟩ := writtenAround arena.rootOnTop nodup others
    refine ⟨.declaration Forest.heading :: a ++ [lineBreak], b ++ [lineBreak], ?_, ?_⟩
    · rw [tokensOfTop arena, whole]
      simp
    · rw [tokensOfTop arenaLeft, takes.topLevel, rest]
      simp
  | @child above y inside own ih =>
    have higher : above ∈ d.ancestors parent := by
      rcases way with same | lower
      · exact (arena.memAncestorsChild (same ▸ own)).mpr (.inl rfl)
      · exact arena.parentOfAncestor lower own
    have listed := arena.memChildren.mpr own
    have others : ∀ z ∈ d.children above, z ≠ y → left.tokensOf z = d.tokensOf z := by
      intro z sibling other
      have parentToo := arena.memChildren.mp sibling
      have apart (onWay : z = parent ∨ z ∈ d.ancestors parent) : False :=
        other (arena.siblingsApart parentToo own onWay way)
      exact takes.tokensSame arena arenaLeft (originalParentBelow (parentParts.mp parentToo).2)
        (not_or.mp apart)
    obtain ⟨a, b, whole, rest⟩ := ih (.inr higher)
    obtain ⟨c, e, middle, middleLeft⟩ := writtenAround listed (arena.childrenNodup above) others
    obtain ⟨tag, tagged⟩ := Option.isSome_iff_exists.mp (arena.parentElement own)
    have tagLeft : left.tag? above = some tag := (takes.tagSame above).trans tagged
    have same : left.children above = d.children above :=
      takes.children above (Nat.ne_of_lt (arena.ancestorBefore higher))
    have filled : d.children above ≠ [] := List.ne_nil_of_mem listed
    refine ⟨a ++ .startTag tag.content :: c, e ++ .endTag tag.name :: b, ?_, ?_⟩
    · rw [whole, tokensOfFilled arena tagged filled, middle]
      simp
    · rw [rest, tokensOfFilled arenaLeft tagLeft (same ▸ filled), same, middleLeft]
      simp

section Gap

variable {tag : Tag} (attached : d.Attached parent) (own : d.tag? parent = some tag)
include attached own

theorem gap : ∃ a b,
    d.tokens = a ++ .startTag tag.content ::
      (before ++ taken ++ x :: after).flatMap d.tokensOf ++ .endTag tag.name :: b ∧
    (before ++ after ≠ [] → left.tokens = a ++ .startTag tag.content ::
      (before ++ after).flatMap d.tokensOf ++ .endTag tag.name :: b) ∧
    (before ++ after = [] → left.tokens = a ++ .emptyTag tag.content :: b) := by
  obtain ⟨a, b, whole, rest⟩ := takes.around arena arenaLeft attached (.inl rfl)
  have stood := takes.stood
  have ownLeft : left.tag? parent = some tag := (takes.tagSame parent).trans own
  have siblings : (before ++ after).flatMap left.tokensOf = (before ++ after).flatMap d.tokensOf := by
    refine List.flatMap_congr fun z listed => ?_
    have above : d.parent? z = some parent := by
      apply arena.memChildren.mp
      rw [stood]
      rcases List.mem_append.mp listed with first | last
      · simp [first]
      · simp [last]
    have later := arena.parentBefore above
    refine takes.tokensSame arena arenaLeft (originalParentBelow (parentParts.mp above).2) ⟨?_, ?_⟩
    · exact Nat.ne_of_gt later
    · exact fun higher => Nat.lt_asymm later (arena.ancestorBefore higher)
  refine ⟨a, b, ?_, fun filled => ?_, fun empty => ?_⟩
  · rw [whole, tokensOfFilled arena own (by simp [stood]), stood]
    simp
  · rw [← takes.closed] at filled
    rw [rest, tokensOfFilled arenaLeft ownLeft filled, takes.closed, siblings]
    simp
  · rw [rest, tokensOfEmpty arenaLeft ownLeft (takes.closed.trans empty)]
    simp

theorem textLeft (filled : left.children parent ≠ []) : ∃ a b : String,
    d.toXml = a ++ d.excerpt taken ++ d.excerpt [x] ++ b ∧ left.toXml = a ++ b := by
  obtain ⟨a, b, whole, rest, _⟩ := takes.gap arena arenaLeft attached own
  have shorter := rest (takes.closed ▸ filled)
  refine ⟨markup (a ++ .startTag tag.content :: before.flatMap d.tokensOf),
    markup (after.flatMap d.tokensOf ++ .endTag tag.name :: b), ?_, ?_⟩
  · rw [toXml, whole, excerptTokens, excerptTokens, ← markupAppend, ← markupAppend, ← markupAppend]
    simp
  · rw [toXml, shorter, ← markupAppend]
    simp

theorem textClosed (empty : left.children parent = []) : ∃ a b : String,
    d.toXml = a ++ ">" ++ d.excerpt taken ++ d.excerpt [x] ++ "</" ++ tag.name ++ ">" ++ b ∧
    left.toXml = a ++ "/>" ++ b := by
  obtain ⟨a, b, whole, _, rest⟩ := takes.gap arena arenaLeft attached own
  have shorter := rest (takes.closed ▸ empty)
  obtain ⟨none, noneEither⟩ := List.append_eq_nil_iff.mp (takes.closed.symm.trans empty)
  rw [none, noneEither] at whole
  refine ⟨markup a ++ "<" ++ tag.content, markup b, ?_, ?_⟩
  · rw [toXml, whole, ← String.toList_inj]
    simp [excerptTokens, markupChars, Token.markup]
  · rw [toXml, shorter, ← String.toList_inj]
    simp [markupChars, Token.markup]

end Gap

theorem textSame (detached : ¬ d.Attached parent) : left.toXml = d.toXml := by
  have aside : ∀ y ∈ d.topLevel, y ≠ parent ∧ y ∉ d.ancestors parent := by
    intro y listed
    constructor
    · intro same
      have element := arena.parentElement takes.above
      exact detached (arena.rootOnly parent (same ▸ listed) element ▸ .root)
    · intro higher
      have root := arena.rootOnly y listed (arena.ancestorElement higher)
      exact detached (arena.attachedIffRoot.mpr (.inr (root ▸ higher)))
  have tree := takes.treeSame arena (treeOfDocument arena) aside
  have same := (treeOfDocument arenaLeft).unique (takes.topLevel ▸ tree)
  unfold toXml tokens
  rw [same]

end Takes
end Document

theorem removalEditsOnePlace {d : Document} (reached : d.Reached) (x : NodeId) :
    (d.root ∈ d.ancestors x → ∃ left parent before taken after tag,
      d.remove? x = some left ∧ d.Takes left x parent before taken after ∧
      d.tag? parent = some tag ∧
      (left.children parent ≠ [] → ∃ a b : String,
        d.toXml = a ++ d.excerpt taken ++ d.excerpt [x] ++ b ∧ left.toXml = a ++ b) ∧
      (left.children parent = [] → ∃ a b : String,
        d.toXml = a ++ ">" ++ d.excerpt taken ++ d.excerpt [x] ++ "</" ++ tag.name ++ ">" ++ b ∧
        left.toXml = a ++ "/>" ++ b)) ∧
    (¬ d.Attached x → (d.removeAll [x]).document.toXml = d.toXml) := by
  have arena := reached.arena
  constructor
  · intro below
    have parented : d.parent? x ≠ none := by
      intro top
      rw [Document.Arena.ancestorsTop top] at below
      cases below
    obtain ⟨left, ok⟩ := Option.ne_none_iff_exists'.mp fun stays => parented (Document.removeNone stays)
    obtain ⟨parent, before, taken, after, takes⟩ := Document.removeTakes arena ok
    have arenaLeft := (Document.Reached.removed reached ok).arena
    have attached : d.Attached parent := by
      rcases (arena.memAncestorsChild takes.above).mp below with same | higher
      · exact same ▸ .root
      · exact arena.attachedIffRoot.mpr (.inr higher)
    obtain ⟨tag, own⟩ := Option.isSome_iff_exists.mp (arena.parentElement takes.above)
    exact ⟨left, parent, before, taken, after, tag, ok, takes, own,
      takes.textLeft arena arenaLeft attached own, takes.textClosed arena arenaLeft attached own⟩
  · intro detached
    unfold Document.removeAll
    cases tried : d.remove? x with
    | none => rfl
    | some left =>
      obtain ⟨parent, before, taken, after, takes⟩ := Document.removeTakes arena tried
      have arenaLeft := (Document.Reached.removed reached tried).arena
      exact takes.textSame arena arenaLeft fun inside => detached (.child inside takes.above)

theorem onlyChildExcised : ∃ d left : Document, Document.parse "<a>x<b> <c/></b></a>" = .ok d ∧
    d.remove? 4 = some left ∧ ∃ a b : String,
      d.toXml = a ++ ">" ++ " " ++ "<c/>" ++ "</" ++ "b" ++ ">" ++ b ∧ left.toXml = a ++ "/>" ++ b := by
  obtain ⟨d, read, facts⟩ := Document.okWith (x := Document.parse "<a>x<b> <c/></b></a>")
    (p := fun d => decide (d.root ∈ d.ancestors 4 ∧ d.parent? 4 = some 2 ∧ d.children 2 = [3, 4] ∧
        d.tag? 2 = some ⟨"b", []⟩ ∧ d.excerpt [3] = " " ∧ d.excerpt [4] = "<c/>") &&
      (d.remove? 4).any fun left : Document => decide (left.children 2 = []))
    (by decide +kernel)
  obtain ⟨before, removed⟩ := Bool.and_eq_true_iff.mp facts
  obtain ⟨below, above, children, tagged, indent, own⟩ := of_decide_eq_true before
  obtain ⟨left, ok, emptied⟩ := (Option.any_eq_true _ _).mp removed
  obtain ⟨other, parent, earlier, taken, later, tag, okToo, takes, name, _, closed⟩ :=
    (removalEditsOnePlace (.parsed read) 4).1 below
  cases Option.some.inj (ok.symm.trans okToo)
  cases Option.some.inj (above.symm.trans takes.above)
  cases Option.some.inj (tagged.symm.trans name)
  have empty := of_decide_eq_true emptied
  obtain ⟨none, noneEither⟩ := List.append_eq_nil_iff.mp (takes.closed.symm.trans empty)
  have only : taken = [3] := by
    have stood : [3] ++ [4] = taken ++ [4] := by
      have all := takes.stood
      rw [children, none, noneEither] at all
      exact all
    exact (List.append_cancel_right stood).symm
  rw [only, indent, own] at closed
  exact ⟨d, left, read, ok, closed empty⟩

end EdmxPruning
