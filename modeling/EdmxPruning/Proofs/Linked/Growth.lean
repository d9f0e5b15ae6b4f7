import Mathlib.Data.List.Basic
import EdmxPruning.Document.Builder
import EdmxPruning.Proofs.Document.Layout
import EdmxPruning.Proofs.Markup.Nesting

/-! What is built while the marks of a forest are read. Each node is added below the innermost open
element, so in the end every element has the children that it has in the numbered forest, and its
namespace is the one that the tags around it give it. -/
namespace EdmxPruning
open Markup

namespace Markup

theorem declarationIff {a : Attribute} {qualifier : String} :
    a.declares qualifier = true ↔ a.declaration? = some (qualifier, a.raw) := by
  unfold Attribute.declares Attribute.declaration?
  by_cases plain : a.key = "xmlns"
  · have mixed : ("xmlns" == "xmlns:" ++ qualifier) = false := by
      refine beq_false_of_ne fun same => ?_
      have lengths := congrArg String.length same
      rw [String.length_append] at lengths
      have short : "xmlns".length = 5 := rfl
      have long : "xmlns:".length = 6 := rfl
      omega
    rw [if_pos plain, plain, mixed]
    simp only [Bool.false_or, beq_self_eq_true, Bool.and_true, beq_iff_eq, Option.some.injEq,
      Prod.mk.injEq, and_true]
    exact eq_comm
  · rw [if_neg plain]
    simp only [beq_eq_false_iff_ne.mpr plain, Bool.and_false, Bool.or_false, beq_iff_eq,
      Option.map_eq_some_iff, Prod.mk.injEq, and_true]
    constructor
    · intro named
      refine ⟨qualifier.toList, List.isPrefixOf?_eq_some_iff_append_eq.mpr ?_, String.ofList_toList⟩
      rw [named, String.toList_append]
    · rintro ⟨rest, split, same⟩
      rw [← String.ofList_toList (s := a.key), ← List.isPrefixOf?_eq_some_iff_append_eq.mp split,
        String.ofList_append, same, String.ofList_toList]

theorem declarationRaw {a : Attribute} {declared : String × String}
    (own : a.declaration? = some declared) : declared.2 = a.raw := by
  unfold Attribute.declaration? at own
  split at own
  · cases own; rfl
  · obtain ⟨_, _, same⟩ := Option.map_eq_some_iff.mp own
    rw [← same]

theorem scopeDeclared (tag : Tag) (qualifier : String) :
    tag.scope.lookup qualifier = tag.declared? qualifier := by
  have latest (attributes : List Attribute) :
      (attributes.filterMap Attribute.declaration?).lookup qualifier =
        ((attributes.filter (Attribute.declares qualifier)).head?).map Attribute.raw := by
    induction attributes with
    | nil => rfl
    | cons a rest ih =>
      cases own : a.declaration? with
      | none =>
        have silent : ¬ a.declares qualifier = true := fun declares => by
          rw [declarationIff.mp declares] at own; cases own
        rw [List.filterMap_cons_none own, List.filter_cons_of_neg silent, ih]
      | some declared =>
        obtain ⟨other, raw⟩ := declared
        have same : raw = a.raw := declarationRaw own
        rw [List.filterMap_cons_some own, List.lookup_cons]
        by_cases meant : qualifier = other
        · have declares : a.declares qualifier = true := declarationIff.mpr (by rw [own, meant, same])
          rw [List.filter_cons_of_pos declares, meant, beq_self_eq_true, same]
          rfl
        · have silent : ¬ a.declares qualifier = true := fun declares => by
            rw [declarationIff.mp declares] at own
            exact meant (Prod.mk.inj (Option.some.inj own)).1
          rw [List.filter_cons_of_neg silent, beq_false_of_ne meant, ih]
  rw [Tag.scope, ← List.filterMap_reverse, latest, List.filter_reverse, List.head?_reverse,
    Tag.declared?]

end Markup

namespace Node

theorem adoptNil (node : Node) : node.adopt [] = node := by
  unfold adopt
  split <;> simp

theorem adoptMore (node : Node) (ids more : List NodeId) :
    (node.adopt ids).adopt more = node.adopt (ids ++ more) := by
  obtain ⟨content, parent, children⟩ := node
  cases content <;> simp [adopt]

theorem adoptContent (node : Node) (ids : List NodeId) : (node.adopt ids).content = node.content := by
  unfold adopt
  split <;> rfl

end Node

/-! ## Nodes and forests -/

section Nodes

variable {nodes : Array Node} {node : Node} {p : Nat}

theorem modifyPushed (below : p < nodes.size) (change : Node → Node) :
    (nodes.push node).modify p change = (nodes.modify p change).push node := by
  refine Array.ext_getElem? fun place => ?_
  simp only [Array.getElem?_modify, Array.getElem?_push, Array.size_modify]
  split <;> split <;> first | rfl | omega

theorem modifyLast (change : Node → Node) :
    (nodes.push node).modify nodes.size change = nodes.push (change node) := by
  refine Array.ext_getElem? fun place => ?_
  simp only [Array.getElem?_modify, Array.getElem?_push]
  split <;> split <;> first | rfl | omega

theorem Markup.Forest.numberModified (f : Forest) (enclosing : List Tag) (parent : Option NodeId)
    (below : p < nodes.size) (change : Node → Node) :
    f.number enclosing parent (nodes.modify p change) =
      (f.number enclosing parent nodes).modify p change := by
  induction f generalizing enclosing parent nodes with
  | nil => rfl
  | leaf l rest ih =>
    rw [number, number, ← modifyPushed below, ih _ _ (by simp; omega)]
  | element tag children rest ihc ihr =>
    have grown := afterGrows children (nodes.size + 1)
    rw [number, number, Array.size_modify, ← modifyPushed below, ihc _ _ (by simp; omega),
      ihr _ _ (by rw [numberSize]; simp; omega)]

end Nodes

namespace Builder

def adopting (nodes : Array Node) (parent : Option NodeId) (ids : List NodeId) : Array Node :=
  match parent with
  | none => nodes
  | some parent => nodes.modify parent (·.adopt ids)

section Adopting

variable {nodes : Array Node} {parent : Option NodeId}
  (inside : ∀ p : Nat, parent = some p → p < nodes.size)

theorem adoptingSize (ids : List NodeId) : (adopting nodes parent ids).size = nodes.size := by
  cases parent <;> simp [adopting]

theorem adoptingNone : adopting nodes parent [] = nodes := by
  cases parent with
  | none => rfl
  | some p =>
    refine Array.ext_getElem? fun place => ?_
    simp only [adopting, Array.getElem?_modify]
    split
    · cases nodes[place]? <;> simp [Node.adoptNil]
    · rfl

theorem adoptingLast (nodes : Array Node) (parent : Option NodeId) (tag : Tag) (uri : Option String)
    (ids : List NodeId) :
    adopting (nodes.push ⟨.element tag uri, parent, []⟩) (some nodes.size) ids =
      nodes.push ⟨.element tag uri, parent, ids⟩ := modifyLast _

include inside

theorem adoptingPushed (node : Node) (ids : List NodeId) :
    adopting (nodes.push node) parent ids = (adopting nodes parent ids).push node := by
  cases parent with
  | none => rfl
  | some p => exact modifyPushed (inside p rfl) _

theorem adoptingMore (ids more : List NodeId) :
    adopting (adopting nodes parent ids) parent more = adopting nodes parent (ids ++ more) := by
  cases parent with
  | none => rfl
  | some p =>
    refine Array.ext_getElem? fun place => ?_
    simp only [adopting, Array.getElem?_modify]
    split
    · cases nodes[place]? <;> simp [Node.adoptMore]
    · rfl

theorem adoptingPushedMore (node : Node) (ids more : List NodeId) :
    adopting ((adopting nodes parent ids).push node) parent more =
      (adopting nodes parent (ids ++ more)).push node := by
  rw [adoptingPushed (by simpa only [adoptingSize] using inside), adoptingMore inside]

theorem adoptingNumbered (f : Forest) (enclosing : List Tag) (above : Option NodeId) (ids : List NodeId) :
    adopting (f.number enclosing above nodes) parent ids =
      f.number enclosing above (adopting nodes parent ids) := by
  cases parent with
  | none => rfl
  | some p => exact (f.numberModified enclosing above (inside p rfl) _).symm

end Adopting

/- A builder below some start tags, innermost first. -/
structure Below (b : Builder) (enclosing : List Tag) : Prop where
  scopes : b.opened.map Prod.snd = enclosing.map Tag.scope
  inside : ∀ entry ∈ b.opened, entry.1 < b.nodes.size

variable {b : Builder} {enclosing : List Tag}

theorem Below.parent (below : b.Below enclosing) (p : Nat) (own : b.parent? = some p) :
    p < b.nodes.size := by
  obtain ⟨entry, first, same⟩ := Option.map_eq_some_iff.mp own
  exact same ▸ below.inside entry (List.mem_of_mem_head? first)

theorem Below.resolve (below : b.Below enclosing) (tag : Tag) (qualifier : String) :
    b.resolve? qualifier tag.scope = Document.resolve? qualifier (tag :: enclosing) := by
  have tags : tag.scope :: b.opened.map Prod.snd = (tag :: enclosing).map Tag.scope := by
    rw [below.scopes, List.map_cons]
  rw [resolve?, Document.resolve?, tags, List.findSome?_map]
  simp only [Function.comp_def, scopeDeclared]

theorem pushNodes (b : Builder) (content : Content) : (b.push content).nodes =
    (adopting b.nodes b.parent? [b.nodes.size]).push ⟨content, b.parent?, []⟩ := by
  unfold push
  cases b.parent? <;> rfl

theorem pushTop (b : Builder) (content : Content) : (b.push content).topLevel =
    b.topLevel ++ if b.opened.isEmpty then [b.nodes.size] else [] := by
  unfold push parent?
  cases b.opened <;> simp

theorem pushRest (b : Builder) (content : Content) : (b.push content).opened = b.opened ∧
    (b.push content).root? = b.root? ∧ (b.push content).firstDefault? = b.firstDefault? := by
  unfold push
  cases b.parent? <;> exact ⟨rfl, rfl, rfl⟩

theorem Below.pushed (below : b.Below enclosing) (content : Content) :
    (b.push content).Below enclosing where
  scopes := by rw [(pushRest b content).1, below.scopes]
  inside entry listed := by
    rw [(pushRest b content).1] at listed
    rw [pushNodes, Array.size_push, adoptingSize]
    exact Nat.lt_succ_of_lt (below.inside entry listed)

structure Entered (b b' : Builder) (tag : Tag) (enclosing : List Tag) : Prop where
  nodes : b'.nodes = (adopting b.nodes b.parent? [b.nodes.size]).push
    ⟨.element tag (Document.resolve? tag.qualifier (tag :: enclosing)), b.parent?, []⟩
  opened : b'.opened = (b.nodes.size, tag.scope) :: b.opened
  top : b'.topLevel = b.topLevel ++ if b.opened.isEmpty then [b.nodes.size] else []
  root : b'.root? = if b.opened.isEmpty then some b.nodes.size else b.root?
  first : b.opened.isEmpty = true → b.root? = none

theorem Below.entered {tag : Tag} {b' : Builder} (below : b.Below enclosing) (ok : b.enter tag = .ok b') :
    b.Entered b' tag enclosing := by
  unfold enter at ok
  split at ok
  · cases ok
  · next free =>
    cases ok
    obtain ⟨opened, root, _⟩ := pushRest b (.element tag (b.resolve? tag.qualifier tag.scope))
    refine ⟨(pushNodes b _).trans (by rw [below.resolve]), rfl, pushTop b _, rfl, fun outside => ?_⟩
    simpa [outside] using free

theorem Entered.below {tag : Tag} {b' : Builder} (entered : b.Entered b' tag enclosing)
    (below : b.Below enclosing) : b'.Below (tag :: enclosing) where
  scopes := by rw [entered.opened, List.map_cons, List.map_cons, below.scopes]
  inside entry listed := by
    rw [entered.nodes, Array.size_push, adoptingSize]
    rw [entered.opened] at listed
    rcases List.mem_cons.mp listed with same | outer
    · exact same ▸ Nat.lt_succ_self _
    · exact Nat.lt_succ_of_lt (below.inside entry outer)

end Builder

namespace Markup.Forest

def TopFilled : Forest → Prop
  | .nil => True
  | .leaf l rest => l.isBlankText = false ∧ rest.TopFilled
  | .element _ _ rest => rest.TopFilled

theorem topFilledReverseOnto {done f : Forest} (before : done.TopFilled) (filled : f.TopFilled) :
    (reverseOnto done f).TopFilled := by
  induction f generalizing done with
  | nil => exact before
  | leaf l rest ih => exact ih ⟨filled.1, before⟩ filled.2
  | element tag children rest _ ih =>
    have next : (element tag children done).TopFilled := before
    exact ih next filled

end Markup.Forest

namespace Building
open Builder

variable {s s' : Building} {enclosing : List Tag} {f : Forest}

/- What is built while the marks of a forest are read: its nodes, below the element that is open. -/
structure Grown (s s' : Building) (enclosing : List Tag) (f : Forest) : Prop where
  names : s'.names = s.names
  opened : s'.builder.opened = s.builder.opened
  nodes : s'.builder.nodes = f.number enclosing s.builder.parent?
    (adopting s.builder.nodes s.builder.parent? (f.roots s.builder.nodes.size))
  top : s'.builder.topLevel = s.builder.topLevel ++
    if s.builder.opened.isEmpty then f.roots s.builder.nodes.size else []
  root : s'.builder.root? = if s.builder.opened.isEmpty
    then s.builder.root?.or (f.rootElement? s.builder.nodes.size) else s.builder.root?

theorem Grown.size (grown : s.Grown s' enclosing f) :
    s'.builder.nodes.size = f.after s.builder.nodes.size := by
  rw [grown.nodes, Forest.numberSize, adoptingSize]

theorem Grown.below (grown : s.Grown s' enclosing f) (below : s.builder.Below enclosing) :
    s'.builder.Below enclosing where
  scopes := by rw [grown.opened, below.scopes]
  inside entry listed := by
    rw [grown.opened] at listed
    rw [grown.size]
    exact Nat.lt_of_lt_of_le (below.inside entry listed) (f.afterGrows _)

theorem Grown.leaf {l : Leaf} {rest : Forest} (below : s.builder.Below enclosing)
    (grown : Grown ⟨s.builder.push (.leaf l), s.names⟩ s' enclosing rest) :
    s.Grown s' enclosing (.leaf l rest) := by
  obtain ⟨names, opened, nodes, top, root⟩ := grown
  obtain ⟨same, sameRoot, _⟩ := pushRest s.builder (.leaf l)
  have parent : (s.builder.push (.leaf l)).parent? = s.builder.parent? := by rw [parent?, parent?, same]
  have pushed := pushNodes s.builder (.leaf l)
  have size : (s.builder.push (.leaf l)).nodes.size = s.builder.nodes.size + 1 := by
    rw [pushed, Array.size_push, adoptingSize]
  simp only [parent, same, sameRoot, size] at opened nodes top root
  refine ⟨names, opened, ?_, ?_, root⟩
  · rw [nodes, pushed, adoptingPushedMore below.parent]
    simp only [Forest.number, Forest.roots, List.cons_append, List.nil_append]
  · rw [top, pushTop, List.append_assoc]
    split <;> rfl

/- The builder after an element, when what is inside of it is built and it is closed again. -/
def closed (s inner : Building) : Building :=
  ⟨{ inner.builder with opened := s.builder.opened }, s.names⟩

section Element

variable {tag : Tag} {children rest : Forest} {entered : Builder} {inner : Building}
  (enters : s.builder.Entered entered tag enclosing)
  (inside : Grown ⟨entered, tag.name :: s.names⟩ inner (tag :: enclosing) children)
include enters inside

theorem innerSize : inner.builder.nodes.size = children.after (s.builder.nodes.size + 1) := by
  rw [inside.size, enters.nodes, Array.size_push, adoptingSize]

variable (below : s.builder.Below enclosing)
include below

theorem innerNodes (ids : List NodeId) : adopting inner.builder.nodes s.builder.parent? ids =
    children.number (tag :: enclosing) (some s.builder.nodes.size)
      ((adopting s.builder.nodes s.builder.parent? (s.builder.nodes.size :: ids)).push
        ⟨.element tag (Document.resolve? tag.qualifier (tag :: enclosing)), s.builder.parent?,
          children.roots (s.builder.nodes.size + 1)⟩) := by
  have host := adoptingLast (adopting s.builder.nodes s.builder.parent? [s.builder.nodes.size])
    s.builder.parent? tag (Document.resolve? tag.qualifier (tag :: enclosing))
    (children.roots (s.builder.nodes.size + 1))
  have parent : entered.parent? = some s.builder.nodes.size := by rw [parent?, enters.opened]; rfl
  rw [adoptingSize] at host
  rw [inside.nodes, parent, enters.nodes, Array.size_push, adoptingSize, host, adoptingNumbered,
    adoptingPushedMore below.parent, List.singleton_append]
  intro p own
  rw [Array.size_push, adoptingSize]
  exact Nat.lt_succ_of_lt (below.parent p own)

theorem closedBelow : (s.closed inner).builder.Below enclosing where
  scopes := below.scopes
  inside entry listed := by
    have grown := children.afterGrows (s.builder.nodes.size + 1)
    show entry.1 < inner.builder.nodes.size
    rw [innerSize enters inside]
    exact Nat.lt_of_lt_of_le (Nat.lt_succ_of_lt (below.inside entry listed)) grown

theorem Grown.element (grown : (s.closed inner).Grown s' enclosing rest) :
    s.Grown s' enclosing (.element tag children rest) := by
  have entry : entered.opened.isEmpty = false := by rw [enters.opened]; rfl
  have innerTop : inner.builder.topLevel = entered.topLevel := by simpa [entry] using inside.top
  have innerRoot : inner.builder.root? = entered.root? := by simpa [entry] using inside.root
  obtain ⟨names, opened, nodes, top, root⟩ := grown
  refine ⟨names, opened, ?_, ?_, ?_⟩
  · have inner := innerNodes enters inside below (rest.roots (children.after (s.builder.nodes.size + 1)))
    rw [Forest.number, Forest.roots, adoptingSize, ← inner, nodes, ← innerSize enters inside]
    rfl
  · rw [top, Forest.roots, ← innerSize enters inside]
    show inner.builder.topLevel ++ (if s.builder.opened.isEmpty then _ else _) = _
    rw [innerTop, enters.top, List.append_assoc]
    split <;> rfl
  · rw [root]
    show (if s.builder.opened.isEmpty then inner.builder.root?.or _ else inner.builder.root?) = _
    rw [innerRoot, enters.root]
    split
    · next outside =>
      rw [enters.first outside]
      rfl
    · rfl

end Element

theorem grows (below : s.builder.Below enclosing)
    (filled : s.builder.opened.isEmpty = true → f.TopFilled) (ok : f.marks.foldlM mark s = .ok s') :
    s.Grown s' enclosing f := by
  induction f generalizing s s' enclosing with
  | nil =>
    cases ok
    refine ⟨rfl, rfl, ?_, ?_, ?_⟩
    · rw [Forest.roots, adoptingNone]
      rfl
    · simp [Forest.roots]
    · simp [Forest.rootElement?]
  | leaf l rest ih =>
    have kept : (s.builder.opened.isEmpty && l.isBlankText) = false := by
      cases outside : s.builder.opened.isEmpty with
      | false => rfl
      | true => simpa using (filled outside).1
    have step : s.mark (.leaf l) = .ok ⟨s.builder.push (.leaf l), s.names⟩ := by
      simp [mark, append, kept]
    rw [Forest.marks, List.foldlM_cons, step] at ok
    obtain ⟨same, _, _⟩ := pushRest s.builder (.leaf l)
    refine Grown.leaf below (ih (below.pushed (.leaf l)) (fun outside => ?_) ok)
    exact (filled (same ▸ outside)).2
  | element tag children rest ihc ihr =>
    rw [Forest.marks, List.foldlM_append, List.foldlM_cons] at ok
    obtain ⟨inner, into, after⟩ := bindDone ok
    obtain ⟨opening, opens, within⟩ := bindDone into
    obtain ⟨entered, enters, same⟩ := bindDone opens
    cases same
    have own := below.entered enters
    have grown := ihc (own.below below) (fun outside => by rw [own.opened] at outside; cases outside) within
    have close : inner.mark (.closing tag.name) = .ok (s.closed inner) := by
      simp only [mark, grown.names, if_pos, leave, grown.opened, own.opened]
      rfl
    rw [List.foldlM_cons, close] at after
    exact Grown.element own grown below (ihr (closedBelow own grown below) filled after)

end Building

end EdmxPruning
