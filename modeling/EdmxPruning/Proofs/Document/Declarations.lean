import EdmxPruning.Proofs.Document.Order

/-! What a qualifier means, said of the finished tree: the nearest element from its own upwards that
says anything about it decides, and an empty declaration decides for no namespace. The default of a
document is the first one that any of its elements declares. -/
namespace EdmxPruning
open Markup

namespace Markup

def Tag.QualifiedBy (tag : Tag) (qualifier : String) : Prop :=
  (qualifier = "" ∧ ':' ∉ tag.name.toList) ∨
    ∃ rest, tag.name.toList = qualifier.toList ++ ':' :: rest ∧ ':' ∉ rest

def Attribute.Declares (a : Attribute) (qualifier : String) : Prop :=
  a.key = "xmlns:" ++ qualifier ∨ (qualifier = "" ∧ a.key = "xmlns")

def Tag.LastDeclares (tag : Tag) (qualifier : String) (a : Attribute) : Prop :=
  ∃ earlier later, tag.attributes = earlier ++ a :: later ∧ a.Declares qualifier ∧
    ∀ b ∈ later, ¬ b.Declares qualifier

def Tag.Silent (tag : Tag) (qualifier : String) : Prop :=
  ∀ a ∈ tag.attributes, ¬ a.Declares qualifier

theorem declaresIff {a : Attribute} {qualifier : String} :
    a.declares qualifier = true ↔ a.Declares qualifier := by
  simp [Attribute.declares, Attribute.Declares]

theorem qualifiedBy (tag : Tag) : tag.QualifiedBy tag.qualifier := by
  unfold Tag.QualifiedBy Tag.qualifier
  rw [String.toList_ofList]
  have split := List.takeWhile_append_dropWhile (p := (· != ':')) (l := tag.name.toList.reverse)
  cases found : tag.name.toList.reverse.dropWhile (· != ':') with
  | nil =>
    refine .inl ⟨by simp [Text.beforeLast, found], fun colon => ?_⟩
    have passed := List.dropWhile_eq_nil_iff.mp found ':' (List.mem_reverse.mpr colon)
    simp at passed
  | cons c earlier =>
    have colon : c = ':' := by
      have stopped := List.head?_dropWhile_not (· != ':') tag.name.toList.reverse
      simpa [found] using stopped
    rw [found] at split
    refine .inr ⟨(tag.name.toList.reverse.takeWhile (· != ':')).reverse, ?_, fun again => ?_⟩
    · have whole := congrArg List.reverse split
      simpa [Text.beforeLast, found, colon] using whole.symm
    · have passed := List.mem_takeWhile_imp (List.mem_reverse.mp again)
      simp at passed

section Declared

variable {tag : Tag} {qualifier : String}

theorem declaredNone : tag.declared? qualifier = none ↔ tag.Silent qualifier := by
  simp [Tag.declared?, Tag.Silent, declaresIff]

theorem lastDeclared {a : Attribute} (last : tag.LastDeclares qualifier a) :
    tag.declared? qualifier = some a.raw := by
  obtain ⟨earlier, later, split, own, none⟩ := last
  have silent : later.filter (Attribute.declares qualifier) = [] :=
    List.filter_eq_nil_iff.mpr fun b listed declares => none b listed (declaresIff.mp declares)
  simp [Tag.declared?, split, List.filter_append, List.filter_cons_of_pos (declaresIff.mpr own), silent]

theorem declaredLast {raw : String} (declared : tag.declared? qualifier = some raw) :
    ∃ a, tag.LastDeclares qualifier a ∧ a.raw = raw := by
  obtain ⟨a, last, same⟩ := Option.map_eq_some_iff.mp declared
  refine ⟨a, ?_, same⟩
  obtain ⟨before, shape⟩ := List.getLast?_eq_some_iff.mp last
  obtain ⟨front, back, split, _, kept⟩ := List.filter_eq_append_iff.mp shape
  obtain ⟨earlier, later, backSplit, _, own, none⟩ := List.filter_eq_cons_iff.mp kept
  refine ⟨front ++ earlier, later, by simp [split, backSplit], declaresIff.mp own, fun b listed yes => ?_⟩
  exact List.filter_eq_nil_iff.mp none b listed (declaresIff.mpr yes)

end Declared

end Markup

namespace Document

/- What a qualifier means at an element. -/
inductive Means (d : Document) (qualifier : String) : NodeId → Option String → Prop where
  | declared {id tag a} (own : d.tag? id = some tag) (last : tag.LastDeclares qualifier a)
      (filled : a.raw ≠ "") : Means d qualifier id (some a.raw)
  | undeclared {id tag a} (own : d.tag? id = some tag) (last : tag.LastDeclares qualifier a)
      (empty : a.raw = "") : Means d qualifier id none
  | outside {id tag parent uri} (own : d.tag? id = some tag) (silent : tag.Silent qualifier)
      (above : d.parent? id = some parent) (outer : Means d qualifier parent uri) :
      Means d qualifier id uri
  | nowhere {id tag} (own : d.tag? id = some tag) (silent : tag.Silent qualifier)
      (top : d.parent? id = none) : Means d qualifier id none

def said (d : Document) (qualifier : String) (id : NodeId) : Option String :=
  (((id :: d.ancestors id).filterMap d.tag?).findSome? (·.declared? qualifier)).filter (· ≠ "")

section Said

variable {d : Document} {qualifier : String} {id : NodeId} {tag : Tag} (own : d.tag? id = some tag)
include own

theorem saidOwn {raw : String} (declared : tag.declared? qualifier = some raw) :
    d.said qualifier id = if raw = "" then none else some raw := by
  rw [said, List.filterMap_cons_some own, List.findSome?_cons, declared]
  by_cases empty : raw = "" <;> simp [empty, Option.filter]

theorem saidOutside (arena : d.Arena) {parent : NodeId} (silent : tag.Silent qualifier)
    (above : d.parent? id = some parent) : d.said qualifier id = d.said qualifier parent := by
  rw [said, List.filterMap_cons_some own, List.findSome?_cons, declaredNone.mpr silent,
    arena.ancestorsChild above, said]

theorem saidNowhere (silent : tag.Silent qualifier) (top : d.parent? id = none) :
    d.said qualifier id = none := by
  simp [said, own, Arena.ancestorsTop top, declaredNone.mpr silent]

theorem meansOwn {raw : String} (declared : tag.declared? qualifier = some raw) :
    d.Means qualifier id (d.said qualifier id) := by
  obtain ⟨a, last, same⟩ := declaredLast declared
  rw [saidOwn own declared, ← same]
  split
  · rename_i empty
    exact .undeclared own last empty
  · rename_i filled
    exact .declared own last filled

end Said

theorem meansSaid {d : Document} (arena : d.Arena) {qualifier : String} {id : NodeId}
    (element : d.isElement id = true) : d.Means qualifier id (d.said qualifier id) := by
  induction id using arena.ancestorsInduction with
  | top id top =>
    obtain ⟨tag, own⟩ := Option.isSome_iff_exists.mp element
    cases declared : tag.declared? qualifier with
    | some raw => exact meansOwn own declared
    | none =>
      have silent := declaredNone.mp declared
      rw [saidNowhere own silent top]
      exact .nowhere own silent top
  | child id parent above ih =>
    obtain ⟨tag, own⟩ := Option.isSome_iff_exists.mp element
    cases declared : tag.declared? qualifier with
    | some raw => exact meansOwn own declared
    | none =>
      have silent := declaredNone.mp declared
      rw [saidOutside own arena silent above]
      exact .outside own silent above (ih (arena.parentElement above))

theorem saidOfMeans {d : Document} (arena : d.Arena) {qualifier : String} {id : NodeId}
    {uri : Option String} (means : d.Means qualifier id uri) : uri = d.said qualifier id := by
  induction means with
  | declared own last filled => rw [saidOwn own (lastDeclared last), if_neg filled]
  | undeclared own last empty => rw [saidOwn own (lastDeclared last), if_pos empty]
  | outside own silent above _ ih => rw [ih, saidOutside own arena silent above]
  | nowhere own silent top => rw [saidNowhere own silent top]

/- The default namespace that an element declares; the last declaration of its tag counts here too. -/
def Defaults (d : Document) (id : NodeId) (uri : String) : Prop :=
  uri ≠ "" ∧ ∃ tag a, d.tag? id = some tag ∧ tag.LastDeclares "" a ∧ a.raw = uri

inductive FirstDefault (d : Document) : List NodeId → String → Prop where
  | here {id rest uri} (own : d.Defaults id uri) : FirstDefault d (id :: rest) uri
  | later {id rest uri} (none : ∀ other, ¬ d.Defaults id other) (after : FirstDefault d rest uri) :
      FirstDefault d (id :: rest) uri
  | nowhere : FirstDefault d [] "http://schemas.microsoft.com/ado/2008/09/edm"

theorem defaultsIff {d : Document} {id : NodeId} {uri : String} :
    d.Defaults id uri ↔ (d.tag? id).bind Tag.defaultNamespace? = some uri := by
  rw [Option.bind_eq_some_iff, Defaults]
  constructor
  · intro given
    obtain ⟨filled, tag, a, own, last, same⟩ := given
    exact ⟨tag, own, by simp [Tag.defaultNamespace?, lastDeclared last, same, filled]⟩
  · intro given
    obtain ⟨tag, own, found⟩ := given
    obtain ⟨declared, filled⟩ := Option.filter_eq_some_iff.mp found
    obtain ⟨a, last, same⟩ := declaredLast declared
    exact ⟨by simpa using filled, tag, a, own, last, same⟩

theorem firstDefaultOf (d : Document) (ids : List NodeId) : d.FirstDefault ids
    ((ids.findSome? fun id => (d.tag? id).bind Tag.defaultNamespace?).getD metadataNamespace) := by
  induction ids with
  | nil => exact .nowhere
  | cons id rest ih =>
    rw [List.findSome?_cons]
    cases own : (d.tag? id).bind Tag.defaultNamespace? with
    | some uri => exact .here (defaultsIff.mpr own)
    | none =>
      refine .later (fun other declares => ?_) ih
      rw [defaultsIff.mp declares] at own
      cases own

theorem defaultAt {d : Document} {id : NodeId} :
    (d.tag? id).bind Tag.defaultNamespace? = d.nodes[id]?.bind Node.defaultNamespace? := by
  unfold tag? content? Node.defaultNamespace?
  cases d.nodes[id]? with
  | none => rfl
  | some node => cases shape : node.content <;> simp [shape]

theorem defaultOfNodes (d : Document) : d.nodes.toList.findSome? Node.defaultNamespace? =
    ((List.range d.nodes.size).filter d.isElement).findSome? fun id =>
      (d.tag? id).bind Tag.defaultNamespace? := by
  have slots : (List.range d.nodes.size).map (d.nodes[·]?) = d.nodes.toList.map some := by
    refine List.ext_getElem? fun place => ?_
    by_cases inside : place < d.nodes.size <;> simp [inside]
  have others (ids : List NodeId) : ((ids.filter d.isElement).findSome? fun id =>
      (d.tag? id).bind Tag.defaultNamespace?) = ids.findSome? fun id =>
      (d.tag? id).bind Tag.defaultNamespace? := by
    induction ids with
    | nil => rfl
    | cons id rest ih =>
      cases own : d.tag? id with
      | none => simp [isElement, own, ih]
      | some tag => simp [isElement, own, List.findSome?_cons, ih]
  rw [others]
  simp only [defaultAt]
  have mapped := congrArg (List.findSome? fun slot => slot.bind Node.defaultNamespace?) slots
  simpa [List.findSome?_map, Function.comp_def] using mapped.symm

theorem parsedDefault {text : String} {d : Document} (read : parse text = .ok d) :
    d.defaultNamespace = (d.nodes.toList.findSome? Node.defaultNamespace?).getD metadataNamespace := by
  obtain ⟨f, _, placed⟩ := parseParts read
  obtain ⟨_, _, same⟩ := Option.map_eq_some_iff.mp placed
  rw [← same]

end Document

theorem namespacesAreLexical {text : String} {d : Document} (read : Document.parse text = .ok d) :
    (∀ id tag uri, d.content? id = some (.element tag uri) →
      tag.QualifiedBy tag.qualifier ∧
      (tag.qualifier = "xml" → uri = some "http://www.w3.org/XML/1998/namespace") ∧
      (tag.qualifier ≠ "xml" → ∀ other, d.Means tag.qualifier id other ↔ other = uri)) ∧
    d.elements = (List.range d.nodes.size).filter d.isElement ∧
    d.FirstDefault d.elements d.defaultNamespace := by
  have reached := Document.Reached.parsed read
  refine ⟨fun id tag uri found => ?_, Document.parsedElements read, ?_⟩
  · have own : d.tag? id = some tag := by simp [Document.tag?, found]
    have element : d.isElement id = true := by simp [Document.isElement, own]
    have resolved := reached.namespaceLexical (Document.parsedElement read element) own
    have stored : d.namespace? id = uri := by simp [Document.namespace?, found]
    rw [stored] at resolved
    refine ⟨qualifiedBy tag, fun reserved => ?_, fun plain other => ?_⟩
    · rw [resolved, Document.resolve?, if_pos reserved, Document.xmlNamespace]
    · have said : uri = d.said tag.qualifier id := by
        rw [resolved, Document.resolve?, if_neg plain, Document.said, List.filterMap_cons_some own]
      rw [said]
      exact ⟨Document.saidOfMeans reached.arena,
        fun same => same ▸ Document.meansSaid reached.arena element⟩
  · rw [Document.parsedDefault read, Document.defaultOfNodes, ← Document.parsedElements read]
    exact Document.firstDefaultOf d d.elements

theorem scopesOfSiblings : ∃ d : Document, Document.parse
      "<a xmlns:p='v'><p:b xmlns:p=''/><p:c xmlns='u'><q:r:d xmlns:q:r='w' xmlns=''/><e/></p:c></a>" =
        .ok d ∧
    d.Means "p" 1 none ∧ d.Means "p" 2 (some "v") ∧ d.Means "q:r" 3 (some "w") ∧
    d.Means "" 4 (some "u") ∧ d.FirstDefault [0, 1, 2, 3, 4] "u" := by
  obtain ⟨d, read, facts⟩ := Document.okWith (x := Document.parse
      "<a xmlns:p='v'><p:b xmlns:p=''/><p:c xmlns='u'><q:r:d xmlns:q:r='w' xmlns=''/><e/></p:c></a>")
    (p := fun d => decide (
      d.content? 1 = some (.element ⟨"p:b", [⟨"xmlns:p", ""⟩]⟩ none) ∧
      d.content? 2 = some (.element ⟨"p:c", [⟨"xmlns", "u"⟩]⟩ (some "v")) ∧
      d.content? 3 = some (.element ⟨"q:r:d", [⟨"xmlns:q:r", "w"⟩, ⟨"xmlns", ""⟩]⟩ (some "w")) ∧
      d.content? 4 = some (.element ⟨"e", []⟩ (some "u")) ∧
      d.elements = [0, 1, 2, 3, 4] ∧ d.defaultNamespace = "u"))
    (by decide +kernel)
  obtain ⟨second, third, fourth, fifth, all, default⟩ := of_decide_eq_true facts
  obtain ⟨lexical, _, first⟩ := namespacesAreLexical read
  rw [all, default] at first
  have means {id : NodeId} {tag : Tag} {uri : Option String}
      (found : d.content? id = some (.element tag uri)) (plain : tag.qualifier ≠ "xml") :
      d.Means tag.qualifier id uri := ((lexical id tag uri found).2.2 plain uri).mpr rfl
  exact ⟨d, read, means second (by decide), means third (by decide), means fourth (by decide),
    means fifth (by decide), first⟩

end EdmxPruning
