import EdmxPruning.Document.Xml
import EdmxPruning.Proofs.Markup.Reading
import EdmxPruning.Proofs.Markup.Written

/-! The tags that open elements, in their order. Those of a text that was read are those of the marks that
count, and a forest is written with one opening tag for each of its elements. -/
namespace EdmxPruning.Markup

def Mark.tag? : Mark → Option Tag
  | .opening tag => some tag
  | _ => none

def Token.tagContent? : Token → Option String
  | .startTag content => some content
  | .emptyTag content => some content
  | _ => none

/- A tag that can be read counts wherever it stands, and nothing else opens an element. -/
theorem countedTag {t : Token} (reads : ∀ error, t.tag? ≠ some (.error error)) (outer : List String) :
    ((t.counted outer).filterMap Mark.tag?).map Except.ok = t.tag?.toList := by
  cases t with
  | startTag content | emptyTag content =>
    cases own : Tag.ofContent content with
    | error error => exact absurd (congrArg some own) (reads error)
    | ok tag =>
      simp [Token.counted, Token.marks, Token.tag?, own, bind, Except.bind, Except.toOption,
        Mark.isBlank, Mark.tag?]
  | leaf l =>
    rw [countedLeaf]
    split <;> rfl
  | endTag name => simp [Token.counted, Token.marks, Token.tag?, Except.toOption, Mark.isBlank, Mark.tag?]
  | declaration content => rfl

theorem countedTags {tokens : List Token} (reads : ∀ t ∈ tokens, ∀ error, t.tag? ≠ some (.error error))
    (outer : List String) : ((countedMarks outer tokens).filterMap Mark.tag?).map Except.ok =
      tokens.filterMap Token.tag? := by
  induction tokens generalizing outer with
  | nil => rfl
  | cons t rest ih =>
    have later := ih (fun u member => reads u (List.mem_cons_of_mem t member)) (t.opened outer)
    have own := countedTag (reads t List.mem_cons_self) outer
    rw [countedMarks, List.filterMap_append, List.map_append, own, later]
    cases read : t.tag? <;> simp [read]

namespace Forest

def tags (f : Forest) : List Tag := f.marks.filterMap Mark.tag?

theorem tagsElement (tag : Tag) (children rest : Forest) :
    (element tag children rest).tags = tag :: children.tags ++ rest.tags := by
  unfold tags
  rw [marks, List.filterMap_append]
  rfl

theorem tokensTags (f : Forest) : f.tokens.filterMap Token.tagContent? = f.tags.map Tag.content := by
  induction f with
  | nil => rfl
  | leaf l rest ih => exact ih
  | element tag children rest ihc ihr =>
    rw [tagsElement, List.map_append, List.map_cons, ← ihc, ← ihr]
    by_cases childless : children = .nil
    · rw [childless]
      rfl
    · rw [elementTokens tag childless, List.filterMap_append]
      rfl

theorem linesTags (f : Forest) : f.lines.filterMap Token.tagContent? = f.tags.map Tag.content := by
  induction f with
  | nil => rfl
  | leaf l rest ih => exact ih
  | element tag children rest _ ih =>
    have own := tokensTags (.element tag children .nil)
    rw [lines, List.filterMap_append, List.filterMap_cons_none rfl, own, ih, tagsElement, tagsElement]
    simp [tags, marks]

end Forest
end EdmxPruning.Markup
