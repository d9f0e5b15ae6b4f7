import Mathlib.Data.List.Forall2
import EdmxPruning.Proofs.Document.Arena
import EdmxPruning.Proofs.Linked.Growth
import EdmxPruning.Proofs.Markup.Reading

/-! Building comes to what reading comes to. While the marks of a text are read, the forest and the links
grow in step, through a stack of open elements each, and what fails for one of them fails alike for the
other. -/
namespace EdmxPruning
open Markup

def Agree {ε α β : Type} (related : α → β → Prop) : Except ε α → Except ε β → Prop
  | .error e, second => second = .error e
  | .ok a, second => ∃ b, second = .ok b ∧ related a b

theorem foldAgree {ε σ τ α : Type} {first : σ → α → Except ε σ}
    {second : τ → α → Except ε τ} {related : σ → τ → Prop}
    (step : ∀ s t a, related s t → Agree related (first s a) (second t a))
    (items : List α) {s : σ} {t : τ} (start : related s t) :
    Agree related (items.foldlM first s) (items.foldlM second t) := by
  induction items generalizing s t with
  | nil => exact ⟨t, rfl, start⟩
  | cons a rest ih =>
    rw [List.foldlM_cons, List.foldlM_cons]
    have next := step s t a start
    cases one : first s a with
    | error e =>
      rw [one] at next
      have same : second t a = .error e := next
      rw [same]
      rfl
    | ok after =>
      rw [one] at next
      obtain ⟨built, same, relates⟩ := next
      rw [same]
      exact ih relates

namespace Markup.Nesting

def TopFilled (earlier : Forest) : List Frame → Prop
  | [] => earlier.TopFilled
  | frame :: outer => TopFilled frame.earlier outer

end Markup.Nesting

namespace Building
open Builder

/- A document that is built and a forest that is read from the same marks. -/
structure Tracks (n : Nesting) (s : Building) : Prop where
  names : s.names = n.names
  opened : List.Forall₂ (fun (frame : Frame) (entry : NodeId × Scope) =>
    ∃ uri, s.builder.nodes[entry.1]?.map Node.content = some (.element frame.tag uri))
    n.frames s.builder.opened
  root : s.builder.root?.isSome = (!n.frames.isEmpty || n.earlier.hasElement)
  filled : Nesting.TopFilled n.earlier n.frames
  built : n.shown.foldlM mark .start = .ok s

variable {n : Nesting} {s : Building}

theorem tracksStart : Tracks .start .start :=
  ⟨rfl, .nil, rfl, trivial, rfl⟩

theorem Tracks.outside (tracks : Tracks n s) : s.builder.opened.isEmpty = n.frames.isEmpty := by
  have lengths := tracks.opened.length_eq
  rw [Bool.eq_iff_iff, List.isEmpty_iff_length_eq_zero, List.isEmpty_iff_length_eq_zero, lengths]

theorem Tracks.taken (tracks : Tracks n s) : (s.builder.opened.isEmpty && s.builder.root?.isSome) =
    (n.frames.isEmpty && n.earlier.hasElement) := by
  rw [tracks.outside, tracks.root]
  cases n.frames.isEmpty <;> rfl

theorem pushContent (b : Builder) (content : Content) {id : Nat} {own : Content}
    (there : b.nodes[id]?.map Node.content = some own) :
    (b.push content).nodes[id]?.map Node.content = some own := by
  obtain ⟨node, found, same⟩ := Option.map_eq_some_iff.mp there
  have inside : id < b.nodes.size := (Array.getElem?_eq_some_iff.mp found).1
  have adopted : (adopting b.nodes b.parent? [b.nodes.size])[id]?.map Node.content = some own := by
    cases b.parent? with
    | none => exact there
    | some p =>
      simp only [adopting, Array.getElem?_modify]
      split
      · simpa [found, Node.adoptContent] using same
      · exact there
  rwa [pushNodes, Array.getElem?_push, if_neg (by rw [adoptingSize]; omega)]

theorem pushedNode (b : Builder) (content : Content) :
    (b.push content).nodes[b.nodes.size]?.map Node.content = some content := by
  rw [pushNodes, Array.getElem?_push, adoptingSize, if_pos rfl]
  rfl

section Step

variable (tracks : Tracks n s)
include tracks

theorem Tracks.pushed (content : Content) : List.Forall₂ (fun (frame : Frame) (entry : NodeId × Scope) =>
    ∃ uri, (s.builder.push content).nodes[entry.1]?.map Node.content = some (.element frame.tag uri))
    n.frames s.builder.opened :=
  tracks.opened.imp fun _ _ ⟨uri, there⟩ => ⟨uri, pushContent s.builder content there⟩

theorem Tracks.snoc {n' : Nesting} {m : Mark} {s' : Building} (shown : n'.shown = n.shown ++ [m])
    (step : s.mark m = .ok s') : n'.shown.foldlM mark .start = .ok s' := by
  rw [shown, List.foldlM_append, tracks.built]
  show [m].foldlM mark s = _
  rw [List.foldlM_cons, step]
  rfl

theorem Tracks.opening (tag : Tag) : Agree Tracks (n.mark (.opening tag)) (s.mark (.opening tag)) := by
  have same := tracks.taken
  cases taken : (n.frames.isEmpty && n.earlier.hasElement) with
  | true =>
    have fails : n.mark (.opening tag) = .error (.secondRootElement tag.name) := if_pos taken
    have failsToo : s.builder.enter tag = .error (.secondRootElement tag.name) := if_pos (same.trans taken)
    rw [fails]
    show s.mark (.opening tag) = _
    simp only [mark, failsToo]
    rfl
  | false =>
    have opens : n.mark (.opening tag) = .ok ⟨.nil, ⟨tag, n.earlier⟩ :: n.frames⟩ :=
      if_neg (Bool.eq_false_iff.mp taken)
    have enters : s.builder.enter tag = .ok (s.builder.into tag) :=
      if_neg (Bool.eq_false_iff.mp (same.trans taken))
    have step : s.mark (.opening tag) = .ok ⟨s.builder.into tag, tag.name :: s.names⟩ := by
      simp only [mark, enters]
      rfl
    rw [opens]
    refine ⟨_, step, ?_, .cons ⟨_, pushedNode _ _⟩ (tracks.pushed _), ?_, tracks.filled,
      tracks.snoc ?_ step⟩
    · rw [tracks.names]
      rfl
    · have root := tracks.root
      rw [← tracks.outside] at root
      show (if s.builder.opened.isEmpty then some s.builder.nodes.size else s.builder.root?).isSome = true
      cases outside : s.builder.opened.isEmpty with
      | true => rfl
      | false =>
        rw [outside] at root
        exact root
    · simp [Nesting.shown, Nesting.shownBefore, Forest.reverse, Forest.reverseOnto, Forest.marks]

theorem Tracks.closing (name : String) :
    Agree Tracks (n.mark (.closing name)) (s.mark (.closing name)) := by
  obtain ⟨earlier, frames⟩ := n
  have names := tracks.names
  cases frames with
  | nil =>
    show s.mark (.closing name) = _
    simp only [mark, names, Nesting.names, List.map_nil]
  | cons frame outer =>
    obtain ⟨entry, entries, own, opened, shape⟩ := List.forall₂_cons_left_iff.mp tracks.opened
    have names : s.names = frame.tag.name :: outer.map (·.tag.name) := names
    by_cases matched : frame.tag.name = name
    · have closes : Nesting.mark ⟨earlier, frame :: outer⟩ (.closing name) =
          .ok ⟨.element frame.tag earlier.reverse frame.earlier, outer⟩ := if_pos matched
      have step : s.mark (.closing name) =
          .ok ⟨{ s.builder with opened := entries }, outer.map (·.tag.name)⟩ := by
        simp only [mark, names, if_pos matched, leave, shape]
        rfl
      rw [closes]
      refine ⟨_, step, rfl, opened, ?_, ?_, tracks.snoc ?_ step⟩
      · simpa [Forest.hasElement] using tracks.root
      · cases outer <;> exact tracks.filled
      · simp [Nesting.shown, Nesting.shownBefore, matched]
    · have fails : Nesting.mark ⟨earlier, frame :: outer⟩ (.closing name) =
          .error (.illFormed (.mismatchedEnd frame.tag.name name)) := if_neg matched
      rw [fails]
      show s.mark (.closing name) = _
      simp only [mark, names, if_neg matched]

theorem Tracks.leaf (l : Leaf) : Agree Tracks (n.mark (.leaf l)) (s.mark (.leaf l)) := by
  have outside := tracks.outside
  cases blank : (n.frames.isEmpty && l.isBlankText) with
  | true =>
    have passes : n.mark (.leaf l) = .ok n := if_pos blank
    have step : s.mark (.leaf l) = .ok s := by
      simp only [mark, append, outside, blank, if_pos]
    rw [passes]
    exact ⟨s, step, tracks⟩
  | false =>
    have keeps : n.mark (.leaf l) = .ok ⟨.leaf l n.earlier, n.frames⟩ := if_neg (Bool.eq_false_iff.mp blank)
    have step : s.mark (.leaf l) = .ok ⟨s.builder.push (.leaf l), s.names⟩ := by
      simp [mark, append, outside, blank]
    obtain ⟨opened, root, _⟩ := pushRest s.builder (.leaf l)
    rw [keeps]
    refine ⟨_, step, tracks.names, opened ▸ tracks.pushed _, root ▸ tracks.root, ?_, tracks.snoc ?_ step⟩
    · obtain ⟨earlier, frames⟩ := n
      have filled := tracks.filled
      cases frames with
      | nil => exact ⟨by simpa using blank, filled⟩
      | cons frame outer => exact filled
    · simp [Nesting.shown]

theorem Tracks.step (m : Mark) : Agree Tracks (n.mark m) (s.mark m) := by
  cases m with
  | opening tag => exact tracks.opening tag
  | closing name => exact tracks.closing name
  | leaf l => exact tracks.leaf l

theorem Tracks.token (t : Token) : Agree Tracks (n.token t) (s.token t) := by
  unfold Nesting.token Building.token
  cases t.marks with
  | error e => rfl
  | ok marks => exact foldAgree (fun _ _ m related => Tracks.step related m) marks tracks

end Step

theorem adoptingDefault (nodes : Array Node) (parent : Option NodeId) (ids : List NodeId) :
    (adopting nodes parent ids).toList.findSome? Node.defaultNamespace? =
      nodes.toList.findSome? Node.defaultNamespace? := by
  have adoptDefault (node : Node) : (node.adopt ids).defaultNamespace? = node.defaultNamespace? := by
    rw [Node.defaultNamespace?, Node.adoptContent, Node.defaultNamespace?]
  have same : (adopting nodes parent ids).toList.map Node.defaultNamespace? =
      nodes.toList.map Node.defaultNamespace? := by
    refine List.ext_getElem? fun place => ?_
    cases parent with
    | none => rfl
    | some p =>
      simp only [adopting, List.getElem?_map, Array.getElem?_toList, Array.getElem?_modify]
      split
      · cases nodes[place]? <;> simp [adoptDefault]
      · rfl
  have found := congrArg (List.findSome? id) same
  rwa [List.findSome?_map, List.findSome?_map] at found

theorem pushDefault (b : Builder) (content : Content) :
    (b.push content).nodes.toList.findSome? Node.defaultNamespace? =
      (b.nodes.toList.findSome? Node.defaultNamespace?).or
        (Node.defaultNamespace? ⟨content, b.parent?, []⟩) := by
  rw [pushNodes, Array.toList_push, List.findSome?_append, adoptingDefault]
  cases found : Node.defaultNamespace? ⟨content, b.parent?, []⟩ <;> simp [found]

def Defaulted (s : Building) : Prop :=
  s.builder.firstDefault? = s.builder.nodes.toList.findSome? Node.defaultNamespace?

theorem markDefault {s s' : Building} {m : Mark} (before : s.Defaulted) (ok : s.mark m = .ok s') :
    s'.Defaulted := by
  unfold Defaulted at before
  cases m with
  | opening tag =>
    obtain ⟨b, enters, same⟩ := bindDone ok
    cases same
    unfold enter at enters
    split at enters <;> cases enters
    have found := pushDefault s.builder (.element tag (s.builder.resolve? tag.qualifier tag.scope))
    rw [← before] at found
    refine .trans ?_ found.symm
    show _ = Option.or _ tag.defaultNamespace?
    rw [Tag.defaultNamespace?, ← scopeDeclared]
    rfl
  | closing name =>
    unfold mark at ok
    simp only at ok
    split at ok
    · cases ok
    · split at ok
      · obtain ⟨b, leaves, same⟩ := bindDone ok
        cases same
        unfold leave at leaves
        split at leaves <;> cases leaves
        exact before
      · cases ok
  | leaf l =>
    cases ok
    unfold Defaulted append
    split
    · exact before
    · rw [pushDefault, (pushRest _ _).2.2, before]
      exact (Option.or_none).symm

end Building

namespace Document

theorem uncutLinked {d : Document} (uncut : ∀ id : Nat, d.isCut id = false) :
    d.linked = ⟨d.nodes, d.topLevel, d.root, d.defaultNamespace⟩ := by
  have same : d.linked.nodes = d.nodes := by
    refine Array.ext_getElem? fun id => ?_
    show (d.nodes.mapIdx _)[id]? = _
    rw [Array.getElem?_mapIdx]
    cases found : d.nodes[id]? with
    | none => rfl
    | some node => simp [parent?, children, uncut, found]
  rw [← same]
  rfl

theorem finishForest {f : Forest} {s : Building} (filled : f.TopFilled)
    (built : f.marks.foldlM Building.mark .start = .ok s) : s.builder.finish =
      match ofForest? f with
      | none => .error .noRootElement
      | some d => .ok d.linked := by
  have outermost : Builder.Below Building.start.builder [] :=
    ⟨rfl, fun _ listed => absurd listed List.not_mem_nil⟩
  obtain ⟨_, opened, nodes, top, root⟩ := Building.grows outermost (fun _ => filled) built
  have defaults : s.Defaulted :=
    foldKeeps (fun _ _ _ _ before ok => Building.markDefault before ok) built rfl
  have opened : s.builder.opened = [] := opened
  have nodes : s.builder.nodes = f.number [] none #[] := nodes
  have top : s.builder.topLevel = f.roots 0 := top
  have root : s.builder.root? = f.rootElement? 0 := root
  cases first : f.rootElement? 0 with
  | none =>
    have none : ofForest? f = none := by rw [ofForest?, first]; rfl
    rw [none, Builder.finish, opened, root, first]
  | some id =>
    obtain ⟨d, read⟩ : ∃ d, ofForest? f = some d := ⟨_, by rw [ofForest?, first]; rfl⟩
    have linked := uncutLinked (ofForestUncut read)
    have default : s.builder.firstDefault? =
        (f.number [] none #[]).toList.findSome? Node.defaultNamespace? := by
      rw [← nodes]
      exact defaults
    rw [read]
    obtain ⟨_, found, same⟩ := Option.map_eq_some_iff.mp read
    cases first.symm.trans found
    cases same
    simp only [Builder.finish, opened, root, first, linked, nodes, top, default]

end Document

namespace Linked

/- Building fails where reading fails, with the same error, and yields the links of what is read. -/
theorem parseLinked (text : String) : parse text = (Document.parse text).map Document.linked := by
  have agrees := foldAgree (fun _ _ t related => Building.Tracks.token related t) (scan text).tokens
    Building.tracksStart
  unfold parse ofScan Document.parse Forest.read Forest.ofScan
  cases folded : (scan text).tokens.foldlM Nesting.token .start with
  | error e =>
    rw [folded] at agrees
    have same : (scan text).tokens.foldlM Building.token .start = .error e := agrees
    rw [same]
    rfl
  | ok n =>
    rw [folded] at agrees
    obtain ⟨s, same, tracks⟩ := agrees
    rw [same]
    cases fault : (scan text).fault with
    | some e => rfl
    | none =>
      obtain ⟨earlier, frames⟩ := n
      cases frames with
      | nil =>
        have filled : earlier.reverse.TopFilled := Forest.topFilledReverseOnto trivial tracks.filled
        have built := Document.finishForest filled tracks.built
        show s.builder.finish = Except.map _ (Except.ok earlier.reverse >>= _)
        cases read : Document.ofForest? earlier.reverse with
        | none =>
          rw [read] at built
          simp only [built, bind, Except.bind, read, Except.map]
        | some d =>
          rw [read] at built
          simp only [built, bind, Except.bind, read, Except.map]
      | cons frame outer =>
        obtain ⟨entry, entries, ⟨uri, own⟩, _, shape⟩ := List.forall₂_cons_left_iff.mp tracks.opened
        show s.builder.finish = .error (.unclosedElement frame.tag.name)
        simp only [Builder.finish, shape, Builder.elementName, own]

end Linked
end EdmxPruning
