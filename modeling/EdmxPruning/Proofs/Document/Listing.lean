import EdmxPruning.Proofs.Document.RoundTrip
import EdmxPruning.Proofs.Markup.Reading

/-! Reading loses, invents and reorders nothing. A text is read if and only if it has no error, and
else it fails with the first one. The walk through a document that was read meets all its nodes in
the order of their numbers and gives back the marks of all tokens that count. -/
namespace EdmxPruning
open Markup

namespace Document

/- The walk through the nodes, depth first, and the mark that each step shows of its node. -/
def listingWithin (d : Document) : Nat → List NodeId → List (NodeId × Mark)
  | 0, _ => []
  | depth + 1, ids => ids.flatMap fun id =>
      match d.content? id with
      | some (.element tag _) =>
          (id, .opening tag) :: d.listingWithin depth (d.children id) ++ [(id, .closing tag.name)]
      | some (.leaf l) => [(id, .leaf l)]
      | none => []

def listing (d : Document) : List (NodeId × Mark) := d.listingWithin d.nodes.size d.topLevel

def met (steps : List (NodeId × Mark)) : List NodeId :=
  steps.filterMap fun step =>
    match step.2 with
    | .closing _ => none
    | _ => some step.1

theorem listingWithinCons (d : Document) (depth : Nat) (id : NodeId) (rest : List NodeId) :
    d.listingWithin (depth + 1) (id :: rest) = (match d.content? id with
      | some (.element tag _) =>
          (id, .opening tag) :: d.listingWithin depth (d.children id) ++ [(id, .closing tag.name)]
      | some (.leaf l) => [(id, .leaf l)]
      | none => []) ++ d.listingWithin (depth + 1) rest := by
  simp only [listingWithin, List.flatMap_cons]

theorem metAppend (first second : List (NodeId × Mark)) :
    met (first ++ second) = met first ++ met second := List.filterMap_append

theorem standsListing {d : Document} {f : Forest} {enclosing : List Tag} {parent : Option NodeId}
    {first depth count : Nat} (stands : f.Stands d.nodes enclosing parent first)
    (uncut : ∀ id : Nat, d.isCut id = false) (size : first + count = f.after first)
    (enough : count ≤ depth) :
    (d.listingWithin depth (f.roots first)).map Prod.snd = f.marks ∧
      met (d.listingWithin depth (f.roots first)) = List.range' first count := by
  induction f generalizing enclosing parent first depth count with
  | nil =>
    have none : count = 0 := Nat.add_eq_left.mp size
    cases depth <;> simp [Forest.roots, listingWithin, Forest.marks, met, none]
  | leaf l rest ih =>
    have grown := Forest.afterGrows rest (first + 1)
    simp only [Forest.after] at size
    obtain ⟨later, split⟩ : ∃ later, count = later + 1 := Nat.exists_eq_succ_of_ne_zero (by omega)
    obtain ⟨depth, deep⟩ : ∃ n, depth = n + 1 := Nat.exists_eq_succ_of_ne_zero (by omega)
    subst split deep
    have here : d.content? first = some (.leaf l) := by simp [content?, stands.1]
    obtain ⟨marks, numbers⟩ := ih stands.2 (by omega) (Nat.le_of_succ_le enough)
    rw [Forest.roots, listingWithinCons, here]
    refine ⟨by simp [marks, Forest.marks], ?_⟩
    rw [metAppend, numbers]
    rfl
  | element tag children rest ihc ihr =>
    have grown := Forest.afterGrows children (first + 1)
    have grownMore := Forest.afterGrows rest (children.after (first + 1))
    simp only [Forest.after] at size
    obtain ⟨below, inner⟩ := Nat.exists_eq_add_of_le grown
    obtain ⟨later, outer⟩ := Nat.exists_eq_add_of_le grownMore
    obtain ⟨depth, deep⟩ : ∃ n, depth = n + 1 := Nat.exists_eq_succ_of_ne_zero (by omega)
    have split : count = below + 1 + later := by omega
    subst split deep
    obtain ⟨own, standsBelow, standsAfter⟩ := stands
    have here : ∃ uri, d.content? first = some (.element tag uri) := by simp [content?, own]
    obtain ⟨uri, here⟩ := here
    have kids : d.children first = children.roots (first + 1) := by
      simp [Document.children, own, uncut]
    obtain ⟨marks, numbers⟩ := ihc standsBelow inner.symm (show below ≤ depth by omega)
    obtain ⟨marksAfter, numbersAfter⟩ :=
      ihr standsAfter outer.symm (show later ≤ depth + 1 by omega)
    rw [Forest.roots, listingWithinCons, here, kids]
    refine ⟨by simp [marks, marksAfter, Forest.marks], ?_⟩
    have inside : met ((first, .opening tag) ::
        d.listingWithin depth (children.roots (first + 1)) ++ [(first, .closing tag.name)]) =
        first :: List.range' (first + 1) below := by
      show first :: met (d.listingWithin depth _ ++ [(first, .closing tag.name)]) = _
      rw [metAppend, numbers]
      simp [met]
    have next : first + 1 + below = first + (below + 1) := by omega
    rw [metAppend, inside, numbersAfter, inner, next, ← List.range'_succ, List.range'_append_1]

theorem listingOfForest {d : Document} {f : Forest} (placed : ofForest? f = some d) :
    d.listing.map Prod.snd = f.marks ∧ met d.listing = List.range d.nodes.size := by
  obtain ⟨_, _, top, _⟩ := ofForestParts placed
  obtain ⟨stands, size⟩ := ofForestStands placed
  unfold listing
  rw [top, List.range_eq_range']
  exact standsListing stands (ofForestUncut placed) (by rw [size, Nat.zero_add]) (Nat.le_refl _)

theorem notPlaced {f : Forest} (top : f.topElements = 0) : ofForest? f = none := by
  have noRoot (first : Nat) : f.rootElement? first = none := by
    induction f generalizing first with
    | nil => rfl
    | leaf l rest ih => exact ih top (first + 1)
    | element => cases top
  unfold ofForest?
  simp [noRoot 0]

theorem parseWellFormed {text : String} (good : (scan text).WellFormed) :
    ∃ d, parse text = .ok d ∧
      d.listing.map Prod.snd = countedMarks [] (scan text).tokens ∧
      met d.listing = List.range d.nodes.size := by
  obtain ⟨f, read, top, marks⟩ := readsWellFormed good
  obtain ⟨d, placed⟩ := placedOfTop top
  refine ⟨d, ?_, marks ▸ listingOfForest placed⟩
  simp [parse, Forest.read, read, placed, bind, Except.bind]

theorem parseFails {text : String} {error : ReadError} (fails : (scan text).Fails error) :
    parse text = .error error := by
  rcases readsFailing fails with read | ⟨same, f, read, top⟩
  · simp [parse, Forest.read, read, bind, Except.bind]
  · simp [parse, Forest.read, read, notPlaced top, same, bind, Except.bind]

theorem parsedWellFormed {text : String} {d : Document} (read : parse text = .ok d) :
    (scan text).WellFormed := by
  rcases wellFormedOrFails (scan text) with good | ⟨error, fails⟩
  · exact good
  · cases read.symm.trans (parseFails fails)

end Document

theorem readingLosesNothing (text : String) :
    ((∃ d, Document.parse text = .ok d) ↔ (scan text).WellFormed) ∧
    (∀ error, Document.parse text = .error error ↔ (scan text).Fails error) ∧
    ∀ d, Document.parse text = .ok d →
      d.listing.map Prod.snd = countedMarks [] (scan text).tokens ∧
      Document.met d.listing = List.range d.nodes.size := by
  refine ⟨⟨fun ⟨d, read⟩ => Document.parsedWellFormed read, fun good => ?_⟩,
    fun error => ⟨fun failed => ?_, Document.parseFails⟩, fun d read => ?_⟩
  · obtain ⟨d, read, _⟩ := Document.parseWellFormed good
    exact ⟨d, read⟩
  · rcases wellFormedOrFails (scan text) with good | ⟨other, fails⟩
    · obtain ⟨d, read, _⟩ := Document.parseWellFormed good
      cases read.symm.trans failed
    · cases failed.symm.trans (Document.parseFails fails)
      exact fails
  · obtain ⟨other, readToo, listed⟩ :=
      Document.parseWellFormed (Document.parsedWellFormed read)
    cases read.symm.trans readToo
    exact listed

theorem everyKindListed : ∃ d, Document.parse
      "<?xml version='1.0'?>\n<!DOCTYPE a><a k=\"v\">x&y;<![CDATA[z]]><!--c--><?p?><b/></a>" = .ok d ∧
    d.listing.map Prod.snd = [.leaf (.doctype "a"), .opening ⟨"a", [⟨"k", "v"⟩]⟩,
      .leaf (.text "x"), .leaf (.reference "y"), .leaf (.cdata "z"), .leaf (.comment "c"),
      .leaf (.instruction "p"), .opening ⟨"b", []⟩, .closing "b", .closing "a"] ∧
    Document.met d.listing = [0, 1, 2, 3, 4, 5, 6, 7] := by
  obtain ⟨d, read, size⟩ := Document.okWith (x := Document.parse
      "<?xml version='1.0'?>\n<!DOCTYPE a><a k=\"v\">x&y;<![CDATA[z]]><!--c--><?p?><b/></a>")
    (p := fun d => decide (d.nodes.size = 8)) (by decide +kernel)
  obtain ⟨_, _, listed⟩ := readingLosesNothing
    "<?xml version='1.0'?>\n<!DOCTYPE a><a k=\"v\">x&y;<![CDATA[z]]><!--c--><?p?><b/></a>"
  obtain ⟨marks, numbers⟩ := listed d read
  refine ⟨d, read, marks.trans (by decide +kernel), ?_⟩
  rw [numbers, of_decide_eq_true size]
  rfl

end EdmxPruning
