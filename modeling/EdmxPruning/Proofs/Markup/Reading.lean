import Mathlib.Data.List.Induction
import Mathlib.Logic.ExistsUnique
import Mathlib.Tactic.ByContra
import EdmxPruning.Proofs.Markup.Nesting
import EdmxPruning.Proofs.Markup.Tags

/-! Reading in the order of the text. The first token at fault is what a text fails with; where no
token is, the nesting follows the tokens: the names of its open elements are those of the start tags
left open, and what it was built from are the marks of the tokens, each at its place. -/
namespace EdmxPruning.Markup

def Token.tag? : Token → Option (Except AttributeError Tag)
  | .startTag content => some (Tag.ofContent content)
  | .emptyTag content => some (Tag.ofContent content)
  | _ => none

def Token.opened (outer : List String) : Token → List String
  | .startTag content => .ofList (content.toList.takeWhile (!isSpace ·)) :: outer
  | .endTag _ => outer.tail
  | _ => outer

def openNames (tokens : List Token) : List String := tokens.foldl Token.opened []

/- What can be wrong with a token where some others stand before it. A tag that cannot be read is
no second root yet. -/
inductive Token.Faulty (before : List Token) : Token → ReadError → Prop where
  | attributes {t : Token} {error : AttributeError} (reads : t.tag? = some (.error error)) :
      Faulty before t (.attribute error)
  | secondRoot {t earlier : Token} {tag : Tag} (reads : t.tag? = some (.ok tag))
      (top : openNames before = []) (member : earlier ∈ before)
      (opens : earlier.tag?.isSome = true) : Faulty before t (.secondRootElement tag.name)
  | unopened {name : String} (top : openNames before = []) :
      Faulty before (.endTag name) (.illFormed (.unopenedEnd name))
  | mismatched {name expected : String} {outer : List String}
      (inside : openNames before = expected :: outer) (other : expected ≠ name) :
      Faulty before (.endTag name) (.illFormed (.mismatchedEnd expected name))

def Sound (tokens : List Token) : Prop :=
  ∀ before t after, tokens = before ++ t :: after → ∀ error, ¬ t.Faulty before error

/- The first error in the order of the text: of a token, of the scan that stopped after the tokens,
or of the end, where an open element comes before a root that is missing. -/
inductive Scan.Fails (s : Scan) : ReadError → Prop where
  | token {before after : List Token} {t : Token} {error : ReadError}
      (split : s.tokens = before ++ t :: after) (sound : Sound before)
      (faulty : t.Faulty before error) : s.Fails error
  | scan {error : ReadError} (sound : Sound s.tokens) (fault : s.fault = some error) :
      s.Fails error
  | unclosed {name : String} {outer : List String} (sound : Sound s.tokens)
      (scanned : s.fault = none) (inside : openNames s.tokens = name :: outer) :
      s.Fails (.unclosedElement name)
  | noRoot (sound : Sound s.tokens) (scanned : s.fault = none)
      (noTag : ∀ t ∈ s.tokens, t.tag? = none) : s.Fails .noRootElement

structure Scan.WellFormed (s : Scan) : Prop where
  scanned : s.fault = none
  matched : ∀ before name after, s.tokens = before ++ .endTag name :: after →
    (openNames before).head? = some name
  attributes : ∀ t ∈ s.tokens, ∀ error, t.tag? ≠ some (.error error)
  oneRoot : ∃! before, ∃ t after, s.tokens = before ++ t :: after ∧ t.tag?.isSome = true ∧
    openNames before = []
  closed : openNames s.tokens = []

def Mark.isBlank : Mark → Bool
  | .leaf l => l.isBlankText
  | _ => false

/- What of a token counts inside the open elements: blank text outside of all does not. -/
def Token.counted (outer : List String) (t : Token) : List Mark :=
  (t.marks.toOption.getD []).filter fun m => !(outer.isEmpty && m.isBlank)

def countedMarks (outer : List String) : List Token → List Mark
  | [] => []
  | t :: rest => t.counted outer ++ countedMarks (t.opened outer) rest

section Tokens

variable {tokens before after : List Token} {t : Token} {s : Scan}

theorem openNamesSnoc (before : List Token) (t : Token) :
    openNames (before ++ [t]) = t.opened (openNames before) := by
  simp [openNames]

theorem openNamesNoTag (noTag : ∀ t ∈ tokens, t.tag? = none) : openNames tokens = [] := by
  unfold openNames
  induction tokens with
  | nil => rfl
  | cons t rest ih =>
    have same : t.opened [] = [] := by
      have own := noTag t List.mem_cons_self
      cases t <;> first | rfl | cases own
    rw [List.foldl_cons, same]
    exact ih fun u member => noTag u (List.mem_cons_of_mem _ member)

theorem countedMarksSnoc (outer : List String) (before : List Token) (t : Token) :
    countedMarks outer (before ++ [t]) =
      countedMarks outer before ++ t.counted (before.foldl Token.opened outer) := by
  induction before generalizing outer with
  | nil => simp [countedMarks]
  | cons u rest ih => simp [countedMarks, ih]

theorem countedLeaf (outer : List String) (l : Leaf) :
    (Token.leaf l).counted outer =
      if (outer.isEmpty && l.isBlankText) = true then [] else [.leaf l] := by
  cases outer <;> cases blank : l.isBlankText <;>
    simp [Token.counted, Token.marks, Except.toOption, Mark.isBlank, blank]

theorem marksFault {error : AttributeError} (reads : t.tag? = some (.error error)) :
    t.marks = .error error := by
  cases t with
  | startTag content => simp [Token.marks, Option.some.inj reads, bind, Except.bind]
  | emptyTag content => simp [Token.marks, Option.some.inj reads, bind, Except.bind]
  | _ => cases reads

theorem marksOpening {tag : Tag} (reads : t.tag? = some (.ok tag)) :
    ∃ later, t.marks = .ok (.opening tag :: later) := by
  cases t with
  | startTag content => simp [Token.marks, Option.some.inj reads, bind, Except.bind]
  | emptyTag content => simp [Token.marks, Option.some.inj reads, bind, Except.bind]
  | _ => cases reads

theorem soundNone : Sound [] := by
  intro before t after split
  simp at split

theorem soundSnoc :
    Sound (before ++ [t]) ↔ Sound before ∧ ∀ error, ¬ t.Faulty before error := by
  constructor
  · intro sound
    refine ⟨fun front u back split => ?_, sound before t [] rfl⟩
    exact sound front u (back ++ [t]) (by simp [split])
  · intro given front u back split
    obtain ⟨sound, fine⟩ := given
    rcases List.eq_nil_or_concat back with none | ⟨more, last, shape⟩
    · rw [none] at split
      obtain ⟨same, own⟩ := List.append_inj' split rfl
      cases own
      exact same ▸ fine
    · have longer : before ++ [t] = (front ++ u :: more) ++ [last] := by simp [split, shape]
      obtain ⟨same, _⟩ := List.append_inj' longer rfl
      exact sound front u more same

theorem soundOrFaulty (tokens : List Token) : Sound tokens ∨
    ∃ before t after error, tokens = before ++ t :: after ∧ Sound before ∧ t.Faulty before error := by
  induction tokens using List.reverseRecOn with
  | nil => exact .inl soundNone
  | append_singleton earlier last ih =>
    rcases ih with sound | ⟨before, t, after, error, split, first, faulty⟩
    · by_cases fine : ∀ error, ¬ last.Faulty earlier error
      · exact .inl (soundSnoc.mpr ⟨sound, fine⟩)
      · obtain ⟨error, faulty⟩ := not_forall_not.mp fine
        exact .inr ⟨earlier, last, [], error, rfl, sound, faulty⟩
    · exact .inr ⟨before, t, after ++ [last], error, by simp [split], first, faulty⟩

theorem firstTag (member : t ∈ tokens) (opens : t.tag?.isSome = true) :
    ∃ before first after, tokens = before ++ first :: after ∧ first.tag?.isSome = true ∧
      ∀ u ∈ before, u.tag? = none := by
  cases found : tokens.find? fun u => u.tag?.isSome with
  | none => exact absurd opens (List.find?_eq_none.mp found t member)
  | some first =>
    obtain ⟨own, before, after, split, none⟩ := List.find?_eq_some_iff_append.mp found
    exact ⟨before, first, after, split, own, fun u earlier => by simpa using none u earlier⟩

namespace Scan.WellFormed

/- A second tag at the top level would be one more than the first of all. -/
theorem sound (good : s.WellFormed) : Sound s.tokens := by
  intro before t after split error faulty
  have member : t ∈ s.tokens := by simp [split]
  cases faulty with
  | attributes reads => exact good.attributes t member _ reads
  | secondRoot reads top earlier opens =>
    obtain ⟨front, first, back, shape, tagged, noTag⟩ := firstTag earlier opens
    have whole : s.tokens = front ++ first :: (back ++ t :: after) := by simp [split, shape]
    have same : front = before := good.oneRoot.unique
      ⟨first, _, whole, tagged, openNamesNoTag noTag⟩ ⟨t, after, split, by simp [reads], top⟩
    simp [← same] at shape
  | unopened top => simpa [top] using good.matched before _ after split
  | mismatched inside other =>
    have own := good.matched before _ after split
    rw [inside] at own
    exact other (Option.some.inj own)

theorem hasTag (good : s.WellFormed) : ∃ t ∈ s.tokens, t.tag?.isSome = true := by
  obtain ⟨before, ⟨t, after, split, opens, _⟩, _⟩ := good.oneRoot
  exact ⟨t, by simp [split], opens⟩

end Scan.WellFormed

theorem topTagAlone (sound : Sound tokens) {first second more : List Token} {u : Token}
    (split : tokens = first ++ t :: after) (opens : t.tag?.isSome = true)
    (other : tokens = second ++ u :: more) (opensToo : u.tag?.isSome = true)
    (top : openNames second = []) : second.length ≤ first.length := by
  by_contra shorter
  have member : t ∈ second := by
    have place : first.length < second.length := Nat.lt_of_not_le shorter
    have there : second[first.length]? = some t := by
      have both : (second ++ u :: more)[first.length]? = (first ++ t :: after)[first.length]? := by
        rw [← other, split]
      simpa [List.getElem?_append_left place] using both
    exact List.mem_of_getElem? there
  obtain ⟨reads, own⟩ := Option.isSome_iff_exists.mp opensToo
  cases reads with
  | error error => exact sound second u more other _ (.attributes own)
  | ok tag => exact sound second u more other _ (.secondRoot own top member opens)

theorem wellFormedOfSound (sound : Sound s.tokens) (scanned : s.fault = none)
    (closed : openNames s.tokens = []) (member : t ∈ s.tokens) (opens : t.tag?.isSome = true) :
    s.WellFormed := by
  refine ⟨scanned, fun before name after split => ?_, fun u inside error reads => ?_, ?_, closed⟩
  · have fine := sound before _ after split
    cases inside : openNames before with
    | nil => exact absurd (.unopened inside) (fine _)
    | cons expected outer =>
      by_contra other
      exact fine _ (.mismatched inside fun same => other (congrArg some same))
  · obtain ⟨before, after, split⟩ := List.append_of_mem inside
    exact sound before u after split _ (.attributes reads)
  · obtain ⟨front, first, back, split, tagged, noTag⟩ := firstTag member opens
    refine ⟨front, ⟨first, back, split, tagged, openNamesNoTag noTag⟩, fun other given => ?_⟩
    obtain ⟨u, more, splitToo, taggedToo, top⟩ := given
    have noLonger := topTagAlone sound split tagged splitToo taggedToo top
    have noShorter := topTagAlone sound splitToo taggedToo split tagged (openNamesNoTag noTag)
    exact (List.append_inj (splitToo.symm.trans split) (Nat.le_antisymm noLonger noShorter)).1

theorem wellFormedOrFails (s : Scan) : s.WellFormed ∨ ∃ error, s.Fails error := by
  rcases soundOrFaulty s.tokens with sound | ⟨before, t, after, error, split, first, faulty⟩
  · cases scanned : s.fault with
    | some error => exact .inr ⟨error, .scan sound scanned⟩
    | none =>
      cases inside : openNames s.tokens with
      | cons name outer => exact .inr ⟨_, .unclosed sound scanned inside⟩
      | nil =>
        by_cases tagged : ∃ t ∈ s.tokens, t.tag?.isSome = true
        · obtain ⟨t, member, opens⟩ := tagged
          exact .inl (wellFormedOfSound sound scanned inside member opens)
        · refine .inr ⟨_, .noRoot sound scanned fun t member => ?_⟩
          by_contra opens
          exact tagged ⟨t, member, Option.isSome_iff_ne_none.mpr opens⟩
  · exact .inr ⟨error, .token split first faulty⟩

end Tokens

namespace Forest

theorem reverseOntoMarks (done f : Forest) :
    (reverseOnto done f).marks = f.reverse.marks ++ done.marks := by
  induction f generalizing done with
  | nil => rfl
  | leaf l rest ih =>
    rw [reverse, reverseOnto, reverseOnto, ih, ih]
    simp [marks]
  | element tag children rest _ ih =>
    rw [reverse, reverseOnto, reverseOnto, ih, ih]
    simp [marks]

@[simp] theorem leafReverseMarks (l : Leaf) (earlier : Forest) :
    (Forest.leaf l earlier).reverse.marks = earlier.reverse.marks ++ [.leaf l] :=
  reverseOntoMarks _ earlier

@[simp] theorem elementReverseMarks (tag : Tag) (children earlier : Forest) :
    (Forest.element tag children earlier).reverse.marks =
      earlier.reverse.marks ++ .opening tag :: children.marks ++ [.closing tag.name] := by
  rw [reverse, reverseOnto, reverseOntoMarks]
  simp [marks]

theorem hasElementTop (f : Forest) : f.hasElement = true ↔ f.topElements ≠ 0 := by
  induction f with
  | nil => simp [hasElement, topElements]
  | leaf l rest ih => exact ih
  | element => simp [hasElement, topElements]

end Forest

namespace Nesting

def names (n : Nesting) : List String := n.frames.map (·.tag.name)

def shownBefore : List Frame → List Mark
  | [] => []
  | frame :: outer => shownBefore outer ++ frame.earlier.reverse.marks ++ [.opening frame.tag]

def shown (n : Nesting) : List Mark := shownBefore n.frames ++ n.earlier.reverse.marks

/- The state of the reading says of the tokens before it all that the next step looks at. -/
structure Follows (n : Nesting) (before : List Token) : Prop where
  names : n.names = openNames before
  top : topElements n.earlier n.frames = 0 ↔ ∀ t ∈ before, t.tag? = none
  shown : n.shown = countedMarks [] before

theorem followsStart : Follows .start [] :=
  ⟨rfl, by simp [start, topElements, Forest.topElements], rfl⟩

section Follows

variable {n n' : Nesting} {before : List Token} {t : Token} {tag : Tag}

theorem Follows.taken (follows : n.Follows before) :
    (n.frames.isEmpty && n.earlier.hasElement) = true ↔
      openNames before = [] ∧ ∃ t ∈ before, t.tag?.isSome = true := by
  obtain ⟨earlier, frames⟩ := n
  have top := follows.top
  rw [← follows.names]
  cases frames with
  | cons frame outer => simp [Nesting.names]
  | nil =>
    simp only [topElements] at top
    simp [Nesting.names, Forest.hasElementTop, top, Option.isSome_iff_ne_none]

theorem openingCounts (frame : Frame) (outer : List Frame) (earlier : Forest) :
    topElements earlier (frame :: outer) ≠ 0 := by
  induction outer generalizing frame earlier with
  | nil => simp [topElements, Forest.topElements]
  | cons next rest ih => exact ih next (.element frame.tag .nil frame.earlier)

theorem followsSnoc (names : n.names = t.opened (openNames before))
    (top : topElements n.earlier n.frames = 0 ↔ (∀ u ∈ before, u.tag? = none) ∧ t.tag? = none)
    (shown : n.shown = countedMarks [] before ++ t.counted (openNames before)) :
    n.Follows (before ++ [t]) where
  names := by rw [names, openNamesSnoc]
  top := by simpa [or_imp, forall_and] using top
  shown := by rw [shown, countedMarksSnoc, openNames]

section Tags

variable {content : String} (follows : n.Follows before) (reads : Tag.ofContent content = .ok tag)
  (free : (n.frames.isEmpty && n.earlier.hasElement) = false)
include follows reads free

theorem Follows.startTag : ∃ n', n.token (.startTag content) = .ok n' ∧
    n'.Follows (before ++ [.startTag content]) := by
  refine ⟨⟨.nil, ⟨tag, n.earlier⟩ :: n.frames⟩, ?_, followsSnoc ?_ ?_ ?_⟩
  · simp [token, Token.marks, reads, mark, free, bind, Except.bind, pure, Except.pure]
  · obtain ⟨_, _, name, _⟩ := ofContentParts reads
    rw [← follows.names]
    simp [Nesting.names, Token.opened, ← name]
  · simp [openingCounts, Token.tag?]
  · rw [← follows.shown]
    simp [Nesting.shown, shownBefore, Token.counted, Token.marks, reads, bind, Except.bind,
      Except.toOption, Mark.isBlank, Forest.reverse, Forest.reverseOnto, Forest.marks]

theorem Follows.emptyTag : ∃ n', n.token (.emptyTag content) = .ok n' ∧
    n'.Follows (before ++ [.emptyTag content]) := by
  refine ⟨⟨.element tag .nil n.earlier, n.frames⟩, ?_, followsSnoc ?_ ?_ ?_⟩
  · simp [token, Token.marks, reads, mark, free, bind, Except.bind, pure, Except.pure,
      Forest.reverse, Forest.reverseOnto]
  · rw [← follows.names]
    simp [Nesting.names, Token.opened]
  · cases frames : n.frames with
    | nil => simp [topElements, Forest.topElements, Token.tag?]
    | cons frame outer => simp [openingCounts, Token.tag?]
  · rw [← follows.shown]
    simp [Nesting.shown, Token.counted, Token.marks, reads, bind, Except.bind,
      Except.toOption, Mark.isBlank, Forest.marks]

end Tags

theorem Follows.endTag (follows : n.Follows before) {name : String} {outer : List String}
    (inside : openNames before = name :: outer) : ∃ n', n.token (.endTag name) = .ok n' ∧
    n'.Follows (before ++ [.endTag name]) := by
  obtain ⟨earlier, frames⟩ := n
  have names := follows.names
  rw [inside] at names
  cases frames with
  | nil => cases names
  | cons frame rest =>
    obtain ⟨same, later⟩ := List.cons.inj names
    refine ⟨⟨.element frame.tag earlier.reverse frame.earlier, rest⟩, ?_, followsSnoc ?_ ?_ ?_⟩
    · simp [token, Token.marks, mark, same, bind, Except.bind, pure, Except.pure]
    · rw [inside]
      exact later
    · have top := follows.top
      cases rest <;> simpa [topElements, Forest.topElements, Token.tag?] using top
    · rw [← follows.shown]
      simp [Nesting.shown, shownBefore, Token.counted, Token.marks, Except.toOption, Mark.isBlank,
        same]

theorem Follows.leaf (follows : n.Follows before) (l : Leaf) :
    ∃ n', n.token (.leaf l) = .ok n' ∧ n'.Follows (before ++ [.leaf l]) := by
  obtain ⟨earlier, frames⟩ := n
  have outside : (openNames before).isEmpty = frames.isEmpty := by
    rw [← follows.names]
    simp [Nesting.names]
  have top := follows.top
  cases blank : frames.isEmpty && l.isBlankText with
  | true =>
    refine ⟨⟨earlier, frames⟩, ?_, followsSnoc follows.names ?_ ?_⟩
    · simp [token, Token.marks, mark, blank, bind, Except.bind, pure, Except.pure]
    · simpa [Token.tag?] using top
    · rw [follows.shown]
      simp [countedLeaf, outside, blank]
  | false =>
    refine ⟨⟨.leaf l earlier, frames⟩, ?_, followsSnoc follows.names ?_ ?_⟩
    · simp [token, Token.marks, mark, blank, bind, Except.bind, pure, Except.pure]
    · cases frames <;> simpa [topElements, Forest.topElements, Token.tag?] using top
    · rw [← follows.shown]
      simp [Nesting.shown, countedLeaf, outside, blank]

theorem Follows.declaration (follows : n.Follows before) (content : String) :
    n.Follows (before ++ [.declaration content]) := by
  refine followsSnoc follows.names ?_ ?_
  · simpa [Token.tag?] using follows.top
  · rw [follows.shown]
    simp [Token.counted, Token.marks, Except.toOption]

theorem Follows.next (follows : n.Follows before) (fine : ∀ error, ¬ t.Faulty before error) :
    ∃ n', n.token t = .ok n' ∧ n'.Follows (before ++ [t]) := by
  have tagFine {result : Except AttributeError Tag} (own : t.tag? = some result) :
      ∃ tag, result = .ok tag ∧ (n.frames.isEmpty && n.earlier.hasElement) = false := by
    cases result with
    | error error => exact absurd (.attributes own) (fine _)
    | ok tag =>
      refine ⟨tag, rfl, Bool.eq_false_iff.mpr fun taken => ?_⟩
      obtain ⟨top, earlier, member, opens⟩ := follows.taken.mp taken
      exact fine _ (.secondRoot own top member opens)
  cases t with
  | startTag content =>
    obtain ⟨tag, reads, free⟩ := tagFine rfl
    exact follows.startTag reads free
  | emptyTag content =>
    obtain ⟨tag, reads, free⟩ := tagFine rfl
    exact follows.emptyTag reads free
  | endTag name =>
    cases inside : openNames before with
    | nil => exact absurd (.unopened inside) (fine _)
    | cons expected outer =>
      by_cases same : expected = name
      · exact follows.endTag (same ▸ inside)
      · exact absurd (.mismatched inside same) (fine _)
  | leaf l => exact follows.leaf l
  | declaration content => exact ⟨n, rfl, follows.declaration content⟩

theorem Follows.stops (follows : n.Follows before) {error : ReadError}
    (faulty : t.Faulty before error) : n.token t = .error error := by
  cases faulty with
  | attributes reads => simp [token, marksFault reads]
  | secondRoot reads top member opens =>
    have taken := follows.taken.mpr ⟨top, _, member, opens⟩
    obtain ⟨later, marks⟩ := marksOpening reads
    simp [token, marks, mark, taken, bind, Except.bind]
  | unopened top =>
    have none : n.frames = [] := List.map_eq_nil_iff.mp (follows.names.trans top)
    simp [token, Token.marks, mark, none, bind, Except.bind]
  | mismatched inside other =>
    have names := follows.names.trans inside
    obtain ⟨frame, rest, open_, own, _⟩ := List.map_eq_cons_iff.mp names
    simp [token, Token.marks, mark, open_, own, other, bind, Except.bind]

end Follows

theorem followsSound {tokens : List Token} (sound : Sound tokens) :
    ∃ n, tokens.foldlM Nesting.token .start = .ok n ∧ n.Follows tokens := by
  induction tokens using List.reverseRecOn with
  | nil => exact ⟨.start, rfl, followsStart⟩
  | append_singleton earlier last ih =>
    obtain ⟨soundBefore, fine⟩ := soundSnoc.mp sound
    obtain ⟨n, folded, follows⟩ := ih soundBefore
    obtain ⟨n', step, followsToo⟩ := follows.next fine
    refine ⟨n', ?_, followsToo⟩
    rw [List.foldlM_append, folded]
    simp [bind, Except.bind, step, pure, Except.pure]

theorem stopsFaulty {before after : List Token} {t : Token} {error : ReadError}
    (sound : Sound before) (faulty : t.Faulty before error) :
    (before ++ t :: after).foldlM Nesting.token .start = .error error := by
  obtain ⟨n, folded, follows⟩ := followsSound sound
  rw [List.foldlM_append, folded]
  simp [bind, Except.bind, follows.stops faulty]

end Nesting

section Scanned

variable {s : Scan}

theorem readsWellFormed (good : s.WellFormed) : ∃ f, Forest.ofScan s = .ok f ∧
    f.topElements ≠ 0 ∧ f.marks = countedMarks [] s.tokens := by
  obtain ⟨⟨earlier, frames⟩, folded, follows⟩ := Nesting.followsSound good.sound
  obtain ⟨t, member, opens⟩ := good.hasTag
  have closed : frames = [] := List.map_eq_nil_iff.mp (follows.names.trans good.closed)
  subst closed
  refine ⟨earlier.reverse, ?_, fun none => ?_, follows.shown⟩
  · simp [Forest.ofScan, folded, good.scanned, Nesting.finish, bind, Except.bind]
  · rw [Forest.topElementsReverse] at none
    rw [follows.top.mp none t member] at opens
    cases opens

theorem readsFailing {error : ReadError} (fails : s.Fails error) : Forest.ofScan s = .error error ∨
    error = .noRootElement ∧ ∃ f, Forest.ofScan s = .ok f ∧ f.topElements = 0 := by
  cases fails with
  | token split sound faulty =>
    left
    simp [Forest.ofScan, split, Nesting.stopsFaulty sound faulty, bind, Except.bind]
  | scan sound fault =>
    left
    obtain ⟨n, folded, _⟩ := Nesting.followsSound sound
    simp [Forest.ofScan, folded, fault, bind, Except.bind]
  | unclosed sound scanned inside =>
    left
    obtain ⟨n, folded, follows⟩ := Nesting.followsSound sound
    obtain ⟨frame, rest, open_, own, _⟩ := List.map_eq_cons_iff.mp (follows.names.trans inside)
    simp [Forest.ofScan, folded, scanned, Nesting.finish, open_, own, bind, Except.bind]
  | noRoot sound scanned noTag =>
    right
    obtain ⟨⟨earlier, frames⟩, folded, follows⟩ := Nesting.followsSound sound
    have closed : frames = [] :=
      List.map_eq_nil_iff.mp (follows.names.trans (openNamesNoTag noTag))
    subst closed
    refine ⟨rfl, earlier.reverse, ?_, ?_⟩
    · simp [Forest.ofScan, folded, scanned, Nesting.finish, bind, Except.bind]
    · rw [Forest.topElementsReverse]
      exact follows.top.mpr noTag

end Scanned
end EdmxPruning.Markup
