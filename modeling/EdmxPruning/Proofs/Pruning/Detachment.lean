import Mathlib.Data.List.TakeWhile
import EdmxPruning.Proofs.Document.Blanks
import EdmxPruning.Proofs.Pruning.Removals

/-! What a removal does, to the last detail. The node goes from among the children of its parent, with
the text directly before it if nothing is left of that when it is trimmed, and all else stays. -/
namespace EdmxPruning
open Markup

theorem Text.trimEmpty {cs : List Char} : trim cs = [] ↔ cs.all blankChar = true := by
  rw [trim, trimEnd, trimStart, List.reverse_eq_nil_iff, List.dropWhile_eq_nil_iff, List.all_eq_true]
  constructor
  · intro blank
    apply List.dropWhile_eq_nil_iff.mp
    cases left : cs.dropWhile blankChar with
    | nil => rfl
    | cons first rest =>
      have stopped := List.head?_dropWhile_not blankChar cs
      have passed := blank first (by simp [left])
      simp [left, passed] at stopped
  · intro blank c listed
    exact blank c ((List.dropWhile_sublist _).mem (List.mem_reverse.mp listed))

theorem beforeAt {id : NodeId} {earlier after : List NodeId} (nodup : (earlier ++ id :: after).Nodup) :
    Document.before? id (earlier ++ id :: after) = earlier.getLast? := by
  induction earlier with
  | nil =>
    refine Option.eq_none_iff_forall_ne_some.mpr fun w found => ?_
    exact (List.nodup_cons.mp nodup).1 (Document.beforeLater found)
  | cons first rest ih =>
    cases rest with
    | nil => simp [Document.before?]
    | cons second others =>
      have later := (List.nodup_cons.mp nodup).2
      have different : second ≠ id := by
        intro same
        simp [same] at later
      rw [List.getLast?_cons_cons, ← ih later]
      show (if second = id then _ else _) = _
      rw [if_neg different]
      rfl

theorem takenOut {id : NodeId} {before taken after : List NodeId}
    (nodup : (before ++ taken ++ id :: after).Nodup) :
    (before ++ taken ++ id :: after).filter (fun x => decide (x ∉ id :: taken)) = before ++ after := by
  have clear {part : List NodeId} (apart : ∀ x ∈ part, x ∉ id :: taken) :
      part.filter (fun x => decide (x ∉ id :: taken)) = part :=
    List.filter_eq_self.mpr fun x listed => decide_eq_true (apart x listed)
  have dropped : taken.filter (fun x => decide (x ∉ id :: taken)) = [] :=
    List.filter_eq_nil_iff.mpr fun x listed => by simp [listed]
  obtain ⟨front, back, apart⟩ := List.nodup_append.mp nodup
  obtain ⟨-, -, beforeTaken⟩ := List.nodup_append.mp front
  rw [List.filter_append, List.filter_append, List.filter_cons_of_neg (by simp), dropped,
    List.append_nil, clear fun x listed => ?_, clear fun x listed => ?_]
  · intro inTaken
    rcases List.mem_cons.mp inTaken with same | inner
    · exact (List.nodup_cons.mp back).1 (same ▸ listed)
    · exact apart x (List.mem_append_right before inner) x (List.mem_cons_of_mem id listed) rfl
  · intro inTaken
    rcases List.mem_cons.mp inTaken with same | inner
    · exact apart x (List.mem_append_left taken listed) id List.mem_cons_self same
    · exact beforeTaken x listed x inner rfl

namespace Document

def TrimsAway (d : Document) (id : NodeId) : Prop :=
  ∃ text, d.content? id = some (.leaf (.text text)) ∧ Text.trim text.toList = []

theorem trimsAway {d : Document} {id : NodeId} : d.TrimsAway id ↔ d.isBlankText id = true := by
  unfold TrimsAway isBlankText
  simp only [Text.trimEmpty]
  cases d.content? id with
  | none => simp
  | some content =>
    cases content with
    | element tag uri => simp
    | leaf l => cases l <;> simp [Leaf.isBlankText, Text.isBlank]

/- A document and what is left of it when a node is taken from between its siblings. -/
structure Takes (d left : Document) (id parent : NodeId) (before taken after : List NodeId) :
    Prop where
  above : d.parent? id = some parent
  stood : d.children parent = before ++ taken ++ id :: after
  closed : left.children parent = before ++ after
  leading : taken = [] ∧ (∀ last ∈ before.getLast?, ¬ d.TrimsAway last) ∨
    ∃ blank, taken = [blank] ∧ d.TrimsAway blank
  detached : ∀ x ∈ id :: taken, d.parent? x = some parent ∧ left.parent? x = none
  parents : ∀ x, x ∉ id :: taken → left.parent? x = d.parent? x
  children : ∀ p, p ≠ parent → left.children p = d.children p
  contents : ∀ x, left.content? x = d.content? x
  topLevel : left.topLevel = d.topLevel
  root : left.root = d.root
  defaultNamespace : left.defaultNamespace = d.defaultNamespace

section Taking

variable {d left : Document} (arena : d.Arena) {id parent : NodeId}
include arena

theorem Arena.siblings (above : d.parent? id = some parent) : ∃ before taken after,
    d.children parent = before ++ taken ++ id :: after ∧
    (taken = [] ∧ (∀ last ∈ before.getLast?, ¬ d.TrimsAway last) ∨
      ∃ blank, taken = [blank] ∧ d.TrimsAway blank) ∧
    ∀ x, x ∈ taken ↔ d.indent? parent id = some x := by
  obtain ⟨earlier, after, split⟩ := List.append_of_mem (arena.memChildren.mpr above)
  have nodup := arena.childrenNodup parent
  rw [split] at nodup
  have indent : d.indent? parent id = earlier.getLast?.filter d.isBlankText := by
    rw [indent?, split, beforeAt nodup]
  cases last : earlier.getLast? with
  | none =>
    rw [last] at indent
    exact ⟨earlier, [], after, by simp [split], .inl ⟨rfl, by simp [last]⟩, by simp [indent]⟩
  | some w =>
    rw [last] at indent
    cases blank : d.isBlankText w with
    | false =>
      rw [Option.filter_some_neg (by simp [blank])] at indent
      refine ⟨earlier, [], after, by simp [split], .inl ⟨rfl, fun x own => ?_⟩, by simp [indent]⟩
      rw [trimsAway, ← Option.some.inj (last.symm.trans own), blank]
      exact Bool.false_ne_true
    | true =>
      rw [Option.filter_some_pos blank] at indent
      obtain ⟨front, shape⟩ := List.getLast?_eq_some_iff.mp last
      refine ⟨front, [w], after, by simp [split, shape], .inr ⟨w, rfl, trimsAway.mpr blank⟩, ?_⟩
      simp [indent, eq_comm]

theorem removeTakes (ok : d.remove? id = some left) :
    ∃ parent before taken after, d.Takes left id parent before taken after := by
  obtain ⟨parent, above, cuts⟩ := removeCuts arena ok
  have lose := removeLoses arena ok
  obtain ⟨before, taken, after, stood, leading, indents⟩ := arena.siblings above
  have nodup := arena.childrenNodup parent
  rw [stood] at nodup
  have gone (x : NodeId) : left.isCut x = true ↔ d.isCut x = true ∨ x ∈ id :: taken := by
    rw [cuts, List.mem_cons, indents]
  have child {x : NodeId} (listed : x ∈ id :: taken) : d.parent? x = some parent := by
    apply arena.memChildren.mp
    rw [stood]
    rcases List.mem_cons.mp listed with same | inTaken
    · simp [same]
    · simp [inTaken]
  have kept {p x : NodeId} (listed : x ∈ d.children p) :
      (!left.isCut x) = decide (x ∉ id :: taken) := by
    rw [Bool.eq_iff_iff, Bool.not_eq_true', ← Bool.not_eq_true, gone, childUncut arena listed]
    simp
  refine ⟨parent, before, taken, after, {
    above := above
    stood := stood
    closed := ?_
    leading := leading
    detached := fun x listed => ⟨child listed, ?_⟩
    parents := fun x stays => ?_
    children := fun p other => ?_
    contents := fun x => by rw [lose.contentSame]
    topLevel := lose.topLevel
    root := lose.root
    defaultNamespace := lose.defaultNamespace }⟩
  · rw [lose.childrenLeft, List.filter_congr fun x listed => kept listed, stood, takenOut nodup]
  · unfold parent?
    rw [(gone x).mpr (.inr listed), if_pos rfl]
  · have same : left.isCut x = d.isCut x := by
      rw [Bool.eq_iff_iff, gone, or_iff_left stays]
    unfold parent?
    rw [same, lose.nodes]
  · rw [lose.childrenLeft]
    refine List.filter_eq_self.mpr fun x listed => ?_
    rw [kept listed, decide_eq_true_eq]
    intro taken
    exact other (Option.some.inj ((arena.memChildren.mp listed).symm.trans (child taken)))

end Taking
end Document

end EdmxPruning
