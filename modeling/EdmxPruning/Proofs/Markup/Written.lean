import EdmxPruning.Document.Xml
import EdmxPruning.Proofs.Markup.Tokens

/-! Forests are read back from what is written for them. Texts that stand next to each other come
back as one, and double quotes in attribute values come back as references. -/
namespace EdmxPruning.Markup
namespace Forest

def withText (content : String) : Forest → Forest
  | .leaf (.text more) rest => .leaf (.text (content ++ more)) rest
  | rest => .leaf (.text content) rest

/- The forest as it comes back: every run of texts is one text, all values are safe in quotes. -/
def written : Forest → Forest
  | .nil => .nil
  | .leaf (.text content) rest => rest.written.withText content
  | .leaf l rest => .leaf l rest.written
  | .element tag children rest => .element tag.written children.written rest.written

theorem withTextFilled (content : String) (f : Forest) : f.withText content ≠ .nil := by
  unfold withText
  split <;> simp

theorem writtenNil {f : Forest} : f.written = .nil ↔ f = .nil := by
  cases f with
  | nil => simp [written]
  | leaf l rest => cases l <;> simp [written, withTextFilled]
  | element tag children rest => simp [written]

theorem elementTokens (tag : Tag) {children : Forest} (filled : children ≠ .nil) (rest : Forest) :
    (Forest.element tag children rest).tokens =
      .startTag tag.content :: children.tokens ++ .endTag tag.name :: rest.tokens := by
  cases children with
  | nil => exact absurd rfl filled
  | leaf l more => rfl
  | element own below more => rfl

theorem withTextMarkup (content : String) (f : Forest) :
    (markup (f.withText content).tokens).toList = content.toList ++ (markup f.tokens).toList := by
  unfold withText
  split <;> simp [markupChars, tokens, Token.markup, Leaf.markup]

theorem writtenMarkup (f : Forest) : markup f.written.tokens = markup f.tokens := by
  rw [← String.toList_inj]
  induction f with
  | nil => rfl
  | leaf l rest ih =>
    cases l with
    | text content =>
      rw [written, withTextMarkup, ih]
      simp [markupChars, tokens, Token.markup, Leaf.markup]
    | _ => simpa [markupChars, written, tokens] using ih
  | element tag children rest ihc ihr =>
    simp only [markupChars] at ihc ihr ⊢
    by_cases none : children = .nil
    · subst none
      simpa [written, tokens, writtenTagContent] using ihr
    · have filled : children.written ≠ .nil := fun empty => none (writtenNil.mp empty)
      have name : tag.written.name = tag.name := rfl
      rw [written, elementTokens _ filled, elementTokens _ none]
      simp [writtenTagContent, name, ihc, ihr]

def NoTopText : Forest → Prop
  | .nil => True
  | .leaf l rest => l.isText = false ∧ rest.NoTopText
  | .element _ _ rest => rest.NoTopText

theorem writtenLines {f : Forest} (noText : f.NoTopText) :
    markup f.written.lines = markup f.lines := by
  rw [← String.toList_inj]
  induction f with
  | nil => rfl
  | leaf l rest ih =>
    have later := ih noText.2
    cases l with
    | text content => cases noText.1
    | _ => simpa [markupChars, written, lines] using later
  | element tag children rest _ ih =>
    have own := congrArg String.toList (writtenMarkup (.element tag children .nil))
    have later := ih noText
    simp only [markupChars] at own later ⊢
    simp only [written, lines, List.flatMap_append, List.flatMap_cons] at own ⊢
    rw [own, later]

def Settled (tag : Tag) : Prop := tag.Writable ∧ tag.written = tag

theorem settledOfWritten {tag : Tag} (w : tag.Writable) : Settled tag.written := by
  refine ⟨w.written, ?_⟩
  simp [Tag.written, Attribute.written, quoteSafeOf, quoteSafeUnquoted]

theorem withTextEach {tags : Tag → Prop} {content : String} {f : Forest}
    (own : (Leaf.text content).Writable) (h : f.Each tags Leaf.Writable) :
    (f.withText content).Each tags Leaf.Writable := by
  unfold withText
  split
  · rename_i more rest
    refine ⟨⟨?_, ?_⟩, h.2⟩
    · simp [own.1]
    · intro c member
      rw [String.toList_append, List.mem_append] at member
      rcases member with first | second
      · exact own.2 c first
      · exact h.1.2 c second
  · exact ⟨own, h⟩

theorem writtenEach {f : Forest} (h : f.Each Tag.Writable Leaf.Writable) :
    f.written.Each Settled Leaf.Writable := by
  induction f with
  | nil => trivial
  | leaf l rest ih =>
    cases l with
    | text content => exact withTextEach h.1 (ih h.2)
    | _ => exact ⟨h.1, ih h.2⟩
  | element tag children rest ihc ihr =>
    exact ⟨settledOfWritten h.1, ihc h.2.1, ihr h.2.2⟩

theorem tokensReadable {f : Forest} (h : f.Each Settled Leaf.Writable) :
    ∀ t ∈ f.tokens, t.Readable := by
  induction f with
  | nil => simp [tokens]
  | leaf l rest ih =>
    intro t member
    rcases List.mem_cons.mp member with same | later
    · exact same ▸ leafReadable h.1
    · exact ih h.2 t later
  | element tag children rest ihc ihr =>
    intro t member
    by_cases none : children = .nil
    · subst none
      rcases List.mem_cons.mp member with same | later
      · exact same ▸ h.1.1.emptyReadable
      · exact ihr h.2.2 t later
    · rw [elementTokens _ none] at member
      rcases List.mem_append.mp member with opened | closed
      · rcases List.mem_cons.mp opened with same | below
        · exact same ▸ h.1.1.startReadable
        · exact ihc h.2.1 t below
      · rcases List.mem_cons.mp closed with same | later
        · exact same ▸ h.1.1.endReadable
        · exact ihr h.2.2 t later

def startsText : Forest → Bool
  | .leaf l _ => l.isText
  | _ => false

def Joined : Forest → Prop
  | .nil => True
  | .leaf l rest => (l.isText = true → rest.startsText = false) ∧ rest.Joined
  | .element _ children rest => children.Joined ∧ rest.Joined

theorem withTextJoined {content : String} {f : Forest} (h : f.Joined) :
    (f.withText content).Joined := by
  unfold withText
  split
  · exact h
  · rename_i other
    refine ⟨fun _ => ?_, h⟩
    cases f with
    | leaf l rest =>
      cases l with
      | text more => exact absurd rfl (other more rest)
      | _ => rfl
    | _ => rfl

theorem writtenJoined (f : Forest) : f.written.Joined := by
  induction f with
  | nil => trivial
  | leaf l rest ih =>
    cases l with
    | text content => exact withTextJoined ih
    | _ => exact ⟨fun text => (Bool.false_ne_true text).elim, ih⟩
  | element tag children rest ihc ihr => exact ⟨ihc, ihr⟩

theorem startsTextTokens {f : Forest} (h : f.startsText = false) :
    ∀ t ∈ f.tokens.head?, t.isText = false := by
  cases f with
  | nil => simp [tokens]
  | leaf l rest => simpa [tokens, Token.isText, startsText] using h
  | element tag children rest => cases children <;> simp [tokens, Token.isText]

theorem tokensApart {f : Forest} (h : f.Joined) : f.tokens.IsChain Apart := by
  induction f with
  | nil => exact .nil
  | leaf l rest ih =>
    refine (ih h.2).cons fun t first text => ?_
    exact startsTextTokens (h.1 text) t first
  | element tag children rest ihc ihr =>
    have noText {t u : Token} (other : t.isText = false) : Apart t u := by simp [Apart, other]
    by_cases none : children = .nil
    · subst none
      exact (ihr h.2).cons fun t _ => noText rfl
    · rw [elementTokens _ none]
      refine .append ((ihc h.1).cons fun t _ => noText rfl) ((ihr h.2).cons fun t _ => noText rfl) ?_
      intro t _ u first _
      cases first
      rfl

theorem reverseOfReverse (done f : Forest) : (reverseOnto done f).reverse = reverseOnto f done := by
  induction f generalizing done with
  | nil => rfl
  | leaf l rest ih => exact ih (.leaf l done)
  | element tag children rest _ ih => exact ih (.element tag children done)

theorem elementFolds {tag : Tag} (settled : Settled tag) (children : Forest) {n : Nesting}
    (free : (n.frames.isEmpty && n.earlier.hasElement) = false)
    (below : ∀ earlier frame outer, children.tokens.foldlM Nesting.token ⟨earlier, frame :: outer⟩ =
      .ok ⟨reverseOnto earlier children, frame :: outer⟩) :
    (Forest.element tag children .nil).tokens.foldlM Nesting.token n =
      .ok ⟨.element tag children n.earlier, n.frames⟩ := by
  have read : Tag.ofContent tag.content = .ok tag := by
    rw [settled.1.readsBack, settled.2]
  by_cases none : children = .nil
  · subst none
    simp [tokens, Nesting.token, Token.marks, read, Nesting.mark, free, bind, Except.bind, pure,
      Except.pure, reverse, reverseOnto]
  · have opened : n.token (.startTag tag.content) = .ok ⟨.nil, ⟨tag, n.earlier⟩ :: n.frames⟩ := by
      simp [Nesting.token, Token.marks, read, Nesting.mark, free, bind, Except.bind, pure,
        Except.pure]
    have closed : Nesting.token ⟨reverseOnto .nil children, ⟨tag, n.earlier⟩ :: n.frames⟩
        (.endTag tag.name) = .ok ⟨.element tag children n.earlier, n.frames⟩ := by
      simp [Nesting.token, Token.marks, Nesting.mark, reverseOfReverse, reverseOnto, bind,
        Except.bind, pure, Except.pure]
    rw [elementTokens _ none, List.cons_append, List.foldlM_cons, opened]
    simp only [bind, Except.bind]
    rw [List.foldlM_append, below]
    simp only [tokens, List.foldlM_cons, closed, bind, Except.bind, List.foldlM_nil]
    rfl

theorem tokensFold {f : Forest} (settled : f.Each Settled Leaf.Writable) (earlier : Forest)
    (frame : Frame) (outer : List Frame) :
    f.tokens.foldlM Nesting.token ⟨earlier, frame :: outer⟩ =
      .ok ⟨reverseOnto earlier f, frame :: outer⟩ := by
  induction f generalizing earlier frame outer with
  | nil => rfl
  | leaf l rest ih =>
    rw [tokens, List.foldlM_cons]
    exact ih settled.2 (.leaf l earlier) frame outer
  | element tag children rest ihc ihr =>
    have one := elementFolds settled.1 children (n := ⟨earlier, frame :: outer⟩) rfl
      (ihc settled.2.1)
    have split : (Forest.element tag children rest).tokens =
        (Forest.element tag children .nil).tokens ++ rest.tokens := by
      cases children <;> simp [tokens]
    rw [split, List.foldlM_append, one]
    exact ihr settled.2.2 (.element tag children earlier) frame outer

theorem noneInside {f : Forest} (h : f.topElements = 0) : f.hasElement = false := by
  induction f with
  | nil => rfl
  | leaf l rest ih => exact ih h
  | element => simp [topElements] at h

theorem writtenTopElements (f : Forest) : f.written.topElements = f.topElements := by
  have withText (content : String) (g : Forest) :
      (g.withText content).topElements = g.topElements := by
    unfold Forest.withText
    split <;> rfl
  induction f with
  | nil => rfl
  | leaf l rest ih =>
    cases l with
    | text content => exact (withText content rest.written).trans ih
    | _ => exact ih
  | element tag children rest _ ih => exact congrArg (· + 1) ih

theorem writtenNoTopText {f : Forest} (h : f.NoTopText) : f.written.NoTopText := by
  induction f with
  | nil => trivial
  | leaf l rest ih =>
    cases l with
    | text content => cases h.1
    | _ => exact ⟨rfl, ih h.2⟩
  | element tag children rest _ ih => exact ih h

/- The line breaks between the top nodes are blank text at the top level, which does not count. -/
theorem linesFold {f : Forest} (settled : f.Each Settled Leaf.Writable) (noText : f.NoTopText)
    {earlier : Forest} (one : earlier.topElements + f.topElements ≤ 1) :
    f.lines.foldlM Nesting.token ⟨earlier, []⟩ = .ok ⟨reverseOnto earlier f, []⟩ := by
  have lineBreak (earlier : Forest) :
      Nesting.token ⟨earlier, []⟩ (.leaf (.text "\n")) = .ok ⟨earlier, []⟩ := by
    have blank : (Leaf.text "\n").isBlankText = true := by decide
    simp [Nesting.token, Token.marks, Nesting.mark, blank, bind, Except.bind, pure, Except.pure]
  induction f generalizing earlier with
  | nil =>
    rw [lines, List.foldlM_cons, lineBreak]
    rfl
  | leaf l rest ih =>
    have kept : Nesting.token ⟨earlier, []⟩ (.leaf l) = .ok ⟨.leaf l earlier, []⟩ := by
      have filled : l.isBlankText = false := by
        cases l with
        | text content => cases noText.1
        | _ => rfl
      simp [Nesting.token, Token.marks, Nesting.mark, filled, bind, Except.bind, pure, Except.pure]
    simp only [lines, List.foldlM_cons, lineBreak, kept, bind, Except.bind]
    exact ih settled.2 noText.2 one
  | element tag children rest _ ih =>
    simp only [topElements] at one
    have free : earlier.hasElement = false := noneInside (by omega)
    have own := elementFolds settled.1 children (n := ⟨earlier, []⟩) (by simpa using free)
      (tokensFold settled.2.1)
    simp only [lines, List.cons_append, List.foldlM_cons, List.foldlM_append, lineBreak, own, bind,
      Except.bind]
    exact ih settled.2.2 noText (by simp only [topElements]; omega)

theorem linesReadable {f : Forest} (settled : f.Each Settled Leaf.Writable) :
    ∀ t ∈ f.lines, t.Readable := by
  have lineBreak : (Token.leaf (.text "\n")).Readable := leafReadable ⟨by simp, by simp [textChar]⟩
  induction f with
  | nil => simpa [lines] using lineBreak
  | leaf l rest ih => simpa [lines, lineBreak, leafReadable settled.1] using ih settled.2
  | element tag children rest _ ih =>
    have own : ∀ t ∈ (Forest.element tag children .nil).tokens, t.Readable :=
      tokensReadable ⟨settled.1, settled.2.1, trivial⟩
    intro t member
    rw [lines, List.cons_append, List.mem_cons, List.mem_append] at member
    rcases member with same | inOwn | later
    · exact same ▸ lineBreak
    · exact own t inOwn
    · exact ih settled.2.2 t later

theorem elementLast (tag : Tag) (children : Forest) :
    ∀ t ∈ (Forest.element tag children .nil).tokens.getLast?, t.isText = false := by
  by_cases none : children = .nil
  · subst none
    simp [tokens, Token.isText]
  · rw [elementTokens _ none, tokens, List.getLast?_concat]
    intro t last
    cases last
    rfl

theorem linesApart {f : Forest} (joined : f.Joined) (noText : f.NoTopText) :
    f.lines.IsChain Apart := by
  have noTextFirst {t u : Token} (other : t.isText = false) : Apart t u := by simp [Apart, other]
  induction f with
  | nil => exact .singleton _
  | leaf l rest ih =>
    have later : (.leaf l :: rest.lines).IsChain Apart :=
      (ih joined.2 noText.2).cons fun t _ => noTextFirst noText.1
    refine later.cons fun t first _ => ?_
    cases first
    exact noText.1
  | element tag children rest _ ih =>
    have own := tokensApart (f := .element tag children .nil) ⟨joined.1, trivial⟩
    have first : ∀ t ∈ (Forest.element tag children .nil).tokens.head?, t.isText = false :=
      startsTextTokens rfl
    refine (own.cons fun t member _ => first t member).append (ih joined.2 noText) ?_
    intro t last u _
    refine noTextFirst (elementLast tag children t ?_)
    cases found : (Forest.element tag children .nil).tokens.getLast? with
    | none =>
      have empty := List.getLast?_eq_none_iff.mp found
      cases children <;> simp [tokens] at empty
    | some v =>
      rw [List.getLast?_cons, found] at last
      exact last

def heading : String := "xml version=\"1.0\" encoding=\"utf-8\""

theorem headingReadable : (Token.declaration heading).Readable := by
  intro more _
  have passes : (heading.toList ++ ['?']).foldlM (afterMarks '?' 1) 0 = some 1 := by decide
  have found : upToClose (afterMarks '?' 1) 1 0 [] (heading.toList ++ ['?'] ++ '>' :: more) =
      some (heading, more) := by
    rw [upToCloseOf passes (by rfl)]
    simp
  have text : (Token.declaration heading).markup.toList ++ more =
      '<' :: '?' :: (heading.toList ++ ['?'] ++ '>' :: more) := by simp [Token.markup]
  have declares : instruction heading = .declaration heading := by decide
  have starts : (heading.toList ++ ['?'] ++ '>' :: more).head? ≠ some '>' := by
    simp [heading]
  rw [text, scanHead, scanBracket, scanInstruction, if_neg starts, found]
  simp [closed, declares]

theorem headedMarkup {f : Forest} (noText : f.NoTopText) :
    markup (.declaration heading :: f.written.lines) = markup (.declaration heading :: f.lines) := by
  have own := congrArg String.toList (writtenLines noText)
  simp only [markupChars] at own
  rw [← String.toList_inj]
  simp [markupChars, own]

theorem readsWritten {f : Forest} (w : f.Each Tag.Writable Leaf.Writable) (noText : f.NoTopText)
    (one : f.topElements ≤ 1) :
    Forest.read (markup (.declaration heading :: f.lines)) = .ok f.written := by
  have settled := writtenEach w
  have noTextWritten := writtenNoTopText noText
  have readable : ∀ t ∈ Token.declaration heading :: f.written.lines, t.Readable := by
    simpa [headingReadable] using linesReadable settled
  have apart : (Token.declaration heading :: f.written.lines).IsChain Apart :=
    (linesApart (writtenJoined f) noTextWritten).cons fun t _ text => (Bool.false_ne_true text).elim
  have noMark : (markup (.declaration heading :: f.written.lines)).toList.head? ≠
      some '\uFEFF' := by simp [markupChars, Token.markup]
  have folded : f.written.lines.foldlM Nesting.token .start = .ok ⟨reverseOnto .nil f.written, []⟩ :=
    linesFold settled noTextWritten (by simpa [writtenTopElements, topElements] using one)
  have headed : Nesting.start.token (.declaration heading) = .ok .start := rfl
  unfold Forest.read
  rw [← headedMarkup noText, scanReads readable apart noMark]
  simp only [ofScan, List.foldlM_cons, headed, folded, bind, Except.bind, Nesting.finish]
  rw [reverseOfReverse]
  rfl

end Forest
end EdmxPruning.Markup
