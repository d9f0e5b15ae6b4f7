import EdmxPruning.Proofs.Document.Renumbering
import EdmxPruning.Proofs.Markup.References

/-! Attributes of a document that is written and read again. Its elements have other numbers then, and
other quotes around and inside of their values, yet they say what they said before. -/
namespace EdmxPruning
open Markup

namespace Document

def stated? (d : Document) (id : NodeId) (name : String) : Option Attribute :=
  (d.tag? id).bind fun tag => tag.attributes.find? (·.key == name)

theorem attributeStated (d : Document) (id : NodeId) (name : String) :
    d.attribute? id name = (d.stated? id name).map Attribute.value := by
  unfold attribute? stated?
  cases d.tag? id with
  | none => rfl
  | some tag =>
    cases found : tag.attributes.find? (·.key == name) <;> simp [found]

namespace Retags

variable {a b : Document} {φ : NodeId → NodeId} (h : Retags Tag.written φ a b) {id : NodeId}
  (there : id ∈ a.elements) (name : String)
include h there

theorem statedWritten : b.stated? (φ id) name = (a.stated? id name).map Attribute.written := by
  unfold stated?
  rw [h.tags id there]
  cases a.tag? id with
  | none => rfl
  | some tag =>
    simp only [Option.map_some, Option.bind_some, Tag.written, List.find?_map]
    rfl

theorem attributeSame (legible : ∀ own ∈ a.stated? id name, own.Legible) :
    b.attribute? (φ id) name = a.attribute? id name := by
  rw [attributeStated, attributeStated, h.statedWritten there]
  cases found : a.stated? id name with
  | none => rfl
  | some own => exact congrArg some (writtenValue (legible own found))

end Retags
end Document

theorem valuesSurviveWriting {d : Document} (reached : d.Reached)
    (plain : ∀ id ∈ d.elements, ∀ tag ∈ d.tag? id, tag.Plain)
    (noText : ∀ id ∈ d.topLevel, ∀ content ∈ d.content? id, content.isText = false) :
    ∃ d' φ, Document.parse d.toXml = .ok d' ∧ Document.Retags Tag.written φ d d' ∧
      ∀ id ∈ d.elements, ∀ name, (∀ own ∈ d.stated? id name, own.Legible) →
        d'.attribute? (φ id) name = d.attribute? id name := by
  obtain ⟨d', read, forest, _⟩ := Document.readsWritten reached plain noText
  have bare : d'.forest.bare = d.forest.bare.retag Tag.written := by
    rw [forest, Forest.writtenRetagged]
  obtain ⟨φ, retags⟩ := Document.retagged reached.arena (Document.Reached.parsed read).arena bare
  exact ⟨d', φ, read, retags, fun id there name legible => retags.attributeSame there name legible⟩

theorem quotesReadBack : ∃ (d d' : Document) (φ : NodeId → NodeId), d.Reached ∧
    Document.parse d.toXml = .ok d' ∧
    d.stated? 0 "k" = some ⟨"k", "\">&lt;"⟩ ∧ d'.stated? (φ 0) "k" = some ⟨"k", "&quot;>&lt;"⟩ ∧
    d'.attribute? (φ 0) "k" = some "\"><" ∧ d'.attribute? (φ 0) "l" = some "'&'" := by
  obtain ⟨whole, read, cuts⟩ := Document.okWith
    (x := Document.parse "<a k='\">&lt;' l=\"'&'\"><b/></a>")
    (p := fun whole => (whole.remove? 1).any fun d : Document => decide (
      (∀ id ∈ d.elements, ∀ tag ∈ d.tag? id, tag.Plain) ∧
      (∀ id ∈ d.topLevel, ∀ content ∈ d.content? id, content.isText = false) ∧
      0 ∈ d.elements ∧ d.stated? 0 "k" = some ⟨"k", "\">&lt;"⟩ ∧
      d.stated? 0 "l" = some ⟨"l", "'&'"⟩))
    (by decide +kernel)
  obtain ⟨d, removed, facts⟩ := (Option.any_eq_true _ _).mp cuts
  obtain ⟨plain, noText, root, first, second⟩ := of_decide_eq_true facts
  have reached : d.Reached := .removed (.parsed read) removed
  obtain ⟨d', φ, again, retags, values⟩ := valuesSurviveWriting reached plain noText
  have legible (name : String) (own : Attribute) (stated : d.stated? 0 name = some own)
      (means : own.Legible) : ∀ a ∈ d.stated? 0 name, a.Legible := by
    rw [stated]
    exact fun a same => Option.some.inj same ▸ means
  refine ⟨d, d', φ, reached, again, first, ?_, ?_, ?_⟩
  · rw [retags.statedWritten root, first]
    decide +kernel
  · rw [values 0 root "k" (legible "k" _ first (.inl (by decide +kernel))), Document.attributeStated,
      first]
    decide +kernel
  · rw [values 0 root "l" (legible "l" _ second (.inr (by decide +kernel))), Document.attributeStated,
      second]
    decide +kernel

end EdmxPruning
