import EdmxPruning.Proofs.Markup.Attributes
import EdmxPruning.Proofs.Markup.Nesting

/-! Tags are read back from what is written for them, as a start tag, an empty tag or an end tag.
A name that was read has no space and no closing bracket in it, for either would have ended it. -/
namespace EdmxPruning.Markup

/- Tags whose markup cannot be taken for anything else. -/
structure Tag.Plain (tag : Tag) : Prop where
  named : tag.name ≠ ""
  notClosed : tag.name.toList.getLast? ≠ some '/'
  unquoted : Unquoted tag.name.toList
  keys : ∀ a ∈ tag.attributes, Unquoted a.key.toList

instance (cs : List Char) : Decidable (Unquoted cs) :=
  decidable_of_iff ((cs.all fun c => c != '"' && c != '\'') = true) (by simp [Unquoted])

instance (tag : Tag) : Decidable tag.Plain :=
  decidable_of_iff
    (tag.name ≠ "" ∧ tag.name.toList.getLast? ≠ some '/' ∧ Unquoted tag.name.toList ∧
      ∀ a ∈ tag.attributes, Unquoted a.key.toList)
    ⟨fun ⟨named, notClosed, unquoted, keys⟩ => ⟨named, notClosed, unquoted, keys⟩,
      fun ⟨named, notClosed, unquoted, keys⟩ => ⟨named, notClosed, unquoted, keys⟩⟩

structure Tag.Writable (tag : Tag) : Prop where
  starts : StartsTag tag.name.toList
  unspaced : ∀ c ∈ tag.name.toList, isSpace c = false
  inside : '>' ∉ tag.name.toList
  unquoted : Unquoted tag.name.toList
  notClosed : tag.name.toList.getLast? ≠ some '/'
  keys : Keys [] tag.attributes

def Tag.written (tag : Tag) : Tag := ⟨tag.name, tag.attributes.map Attribute.written⟩

theorem ofContentParts {content : String} {tag : Tag} (ok : Tag.ofContent content = .ok tag) :
    ∃ total fuel, tag.name.toList = content.toList.takeWhile (!isSpace ·) ∧
      readAttributes total fuel [] (content.toList.dropWhile (!isSpace ·)) = .ok tag.attributes := by
  obtain ⟨attributes, read, same⟩ := bindOk ok
  subst same
  exact ⟨_, _, String.toList_ofList, read⟩

theorem startOrEmptyParts {whole content : String}
    (h : startOrEmpty whole = .startTag content ∨ startOrEmpty whole = .emptyTag content) :
    ∃ close, (close = [] ∨ close = ['/']) ∧ whole.toList = content.toList ++ close := by
  unfold startOrEmpty at h
  split at h
  · rename_i name reversed
    rcases h with start | empty
    · cases start
    · cases empty
      refine ⟨['/'], .inr rfl, ?_⟩
      have turned := congrArg List.reverse reversed
      simpa using turned
  · rcases h with start | empty
    · cases start
      exact ⟨[], .inl rfl, by simp⟩
    · cases empty

theorem bangLeaf {cs rest : List Char} {t : Token} (h : scanBang cs = .token t rest) :
    ∃ l, t = .leaf l := by
  obtain ⟨_, cdata | comment | doctype⟩ := scanBangParts h
  · obtain ⟨_, same, _⟩ := cdataAgain cdata
    exact ⟨_, same⟩
  · obtain ⟨_, same, _⟩ := commentAgain comment
    exact ⟨_, same⟩
  · obtain ⟨_, same, _⟩ := doctypeAgain doctype
    exact ⟨_, same⟩

theorem instructionParts (content : String) :
    instruction content = .declaration content ∨
      instruction content = .leaf (.instruction content) := by
  unfold instruction
  split
  · exact .inl rfl
  · split
    · exact .inl rfl
    · exact .inr rfl
  · exact .inr rfl

theorem openedByQuote {cs : List Char} {start : Option Char} {quote : Char}
    (passes : cs.foldlM outsideQuotes start = some (some quote))
    (own : ∀ c ∈ start, c = '"' ∨ c = '\'') : quote = '"' ∨ quote = '\'' := by
  induction cs generalizing start with
  | nil =>
    cases passes
    exact own quote rfl
  | cons c more ih =>
    rw [List.foldlM_cons] at passes
    cases next : outsideQuotes start c with
    | none => simp [next] at passes
    | some later =>
      rw [next] at passes
      apply ih passes
      intro q isOpen
      cases start <;> grind [outsideQuotes]

/- Where a tag is scanned, there is its content up to the bracket, with no quote left open. -/
theorem scannedTag {t : Token} {content : String} (scanned : t.Scanned)
    (opens : t = .startTag content ∨ t = .emptyTag content) :
    ∃ rest, StartsTag (content.toList ++ rest) ∧
      content.toList.foldlM outsideQuotes none = some none := by
  obtain ⟨cs, left, head⟩ := scanned
  have noLeaf (l : Leaf) : t ≠ .leaf l := by
    intro same
    rcases opens with start | empty
    · cases same.symm.trans start
    · cases same.symm.trans empty
  rcases scanHeadParts head with ⟨more, bracket⟩ | ⟨_, reference⟩ | ⟨_, same, _⟩
  · rcases scanBracketParts bracket with ⟨_, bang⟩ | ⟨_, told⟩ | ⟨_, other⟩ | ⟨starts, tag⟩
    · obtain ⟨l, same⟩ := bangLeaf bang
      exact absurd same (noLeaf l)
    · obtain ⟨text, same, _⟩ := instructionAgain told
      rcases instructionParts text with declared | leaf
      · rcases opens with start | empty
        · cases (same.trans declared).symm.trans start
        · cases (same.trans declared).symm.trans empty
      · exact absurd (same.trans leaf) (noLeaf _)
    · rcases opens with start | empty
      · cases other.symm.trans start
      · cases other.symm.trans empty
    · obtain ⟨whole, found, same⟩ := closedToken tag
      obtain ⟨c, final, split, passes, stops⟩ := upToBracketParts found
      obtain ⟨outside, _⟩ := outsideQuotesStops stops
      subst outside
      obtain ⟨close, either, shape⟩ := startOrEmptyParts (same ▸ opens)
      refine ⟨close ++ c :: left, by rwa [split, shape, List.append_assoc] at starts, ?_⟩
      rw [shape, List.foldlM_append] at passes
      cases before : content.toList.foldlM outsideQuotes none with
      | none => simp [before] at passes
      | some quote =>
        rcases either with empty | slash
        · simpa [before, empty] using passes
        · cases quote with
          | none => rfl
          | some quote =>
            have own := openedByQuote before (by simp)
            have reopened : '/' = quote := by simpa [before, slash, outsideQuotes] using passes
            subst reopened
            simp at own
  · obtain ⟨_, same, _⟩ := referenceAgain reference
    exact absurd same (noLeaf _)
  · exact absurd same (noLeaf _)

theorem scannedWritable {t : Token} {tag : Tag} (scanned : t.Scanned) (opens : t.Opens tag)
    (plain : tag.Plain) : tag.Writable := by
  obtain ⟨content, either, read⟩ := opens
  obtain ⟨rest, starts, passes⟩ := scannedTag scanned either
  obtain ⟨total, fuel, name, attributes⟩ := ofContentParts read
  have split : content.toList = tag.name.toList ++ content.toList.dropWhile (!isSpace ·) := by
    rw [name]
    exact List.takeWhile_append_dropWhile.symm
  rw [split] at passes starts
  obtain ⟨inside, later⟩ := unquotedParts plain.unquoted passes
  refine ⟨?_, ?_, inside, plain.unquoted, plain.notClosed,
    readAttributesKeys attributes plain.keys later⟩
  · cases shape : tag.name.toList with
    | nil => exact absurd (String.toList_eq_nil_iff.mp shape) plain.named
    | cons c more =>
      obtain ⟨first, _, same, notMarkup⟩ := starts
      rw [shape] at same
      cases same
      exact ⟨c, more, rfl, notMarkup⟩
  · intro c member
    rw [name] at member
    simpa using List.mem_takeWhile_imp member

theorem tagChars (tag : Tag) : tag.content.toList =
    tag.name.toList ++ tag.attributes.flatMap fun a => ' ' :: a.content.toList := by
  have folded (attributes : List Attribute) (text : String) :
      (attributes.foldl (fun text a => text ++ " " ++ a.content) text).toList =
        text.toList ++ attributes.flatMap fun a => ' ' :: a.content.toList := by
    induction attributes generalizing text with
    | nil => simp
    | cons a later ih => simp [ih]
  exact folded tag.attributes tag.name

theorem writtenTagContent (tag : Tag) : tag.written.content = tag.content := by
  rw [← String.toList_inj, tagChars, tagChars]
  simp [Tag.written, List.flatMap_map, writtenContent]

theorem attributesShown (attributes : List Attribute) :
    attributes.length ≤ (attributes.flatMap fun a => ' ' :: a.content.toList).length := by
  induction attributes with
  | nil => simp
  | cons a later ih =>
    simp only [List.flatMap_cons, List.length_cons, List.length_append]
    omega

namespace Tag.Writable

variable {tag : Tag} (w : tag.Writable)
include w

theorem written : tag.written.Writable where
  starts := w.starts
  unspaced := w.unspaced
  inside := w.inside
  unquoted := w.unquoted
  notClosed := w.notClosed
  keys := by
    obtain ⟨shape, unquoted, inside, new, distinct⟩ := w.keys
    constructor
    · simpa [Tag.written, Attribute.written] using shape
    · simpa [Tag.written, Attribute.written] using unquoted
    · simpa [Tag.written, Attribute.written] using inside
    · simp
    · simpa [Tag.written, Attribute.written, Function.comp_def] using distinct

theorem passes : tag.content.toList.foldlM outsideQuotes none = some none := by
  have one (a : Attribute) (member : a ∈ tag.attributes) (rest : List Char) :
      (' ' :: a.content.toList ++ rest).foldlM outsideQuotes none =
        rest.foldlM outsideQuotes none := by
    have plain : Unquoted (' ' :: a.key.toList ++ ['=']) := by
      intro c inside
      simp only [List.cons_append, List.mem_cons, List.mem_append, List.not_mem_nil, or_false]
        at inside
      rcases inside with space | key | equals
      · exact space ▸ by decide
      · exact w.keys.unquoted a member c key
      · exact equals ▸ by decide
    have bracket : '>' ∉ ' ' :: a.key.toList ++ ['='] := by
      simpa using w.keys.inside a member
    have text : ' ' :: a.content.toList ++ rest = (' ' :: a.key.toList ++ ['=']) ++
        ('"' :: (quoteSafe a.raw).toList ++ '"' :: rest) := by simp [contentChars]
    rw [text, unquotedPasses plain bracket, quotedPasses (.inl rfl) (quoteSafeUnquoted a.raw)]
  have all (attributes : List Attribute) (listed : ∀ a ∈ attributes, a ∈ tag.attributes) :
      (attributes.flatMap fun a => ' ' :: a.content.toList).foldlM outsideQuotes none =
        some none := by
    induction attributes with
    | nil => rfl
    | cons a later ih =>
      rw [List.flatMap_cons, one a (listed a List.mem_cons_self)]
      exact ih fun b member => listed b (List.mem_cons_of_mem _ member)
  rw [tagChars, unquotedPasses w.unquoted w.inside]
  exact all tag.attributes fun a member => member

theorem readsBack : Tag.ofContent tag.content = .ok tag.written := by
  have unspaced : ∀ c ∈ tag.name.toList, (!isSpace c) = true := by simpa using w.unspaced
  have parts : tag.content.toList.takeWhile (!isSpace ·) = tag.name.toList ∧
      tag.content.toList.dropWhile (!isSpace ·) =
        tag.attributes.flatMap fun a => ' ' :: a.content.toList := by
    rw [tagChars]
    cases tag.attributes with
    | nil => simpa [List.takeWhile_eq_self_iff, List.dropWhile_eq_nil_iff] using w.unspaced
    | cons a later => exact stopsAt unspaced (by decide : (!isSpace ' ') = false) _
  have enough : tag.attributes.length ≤ tag.content.toList.length + 1 := by
    have shown := attributesShown tag.attributes
    rw [tagChars, List.length_append]
    omega
  have read := readAttributesWritten (utf8Length tag.content.toList) w.keys enough
  unfold Tag.ofContent
  simp only [parts, read, bind, Except.bind, String.ofList_toList]
  rfl

theorem contentOpen : ∀ c ∈ tag.content.toList.getLast?, c ≠ '/' := by
  intro c last slash
  rw [tagChars] at last
  rcases List.eq_nil_or_concat tag.attributes with none | ⟨earlier, a, split⟩
  · rw [none, List.flatMap_nil, List.append_nil] at last
    exact w.notClosed (slash ▸ last)
  · have closing (front : List Char) : (front ++ ['"']).getLast? = some '"' := by simp
    rw [split, List.concat_eq_append, List.flatMap_append, List.flatMap_singleton, contentChars,
      ← List.cons_append, ← List.append_assoc, ← List.append_assoc, closing] at last
    cases last.trans (congrArg some slash)

theorem startsMarkup (rest : List Char) : StartsTag (tag.content.toList ++ rest) := by
  obtain ⟨c, more, name, notMarkup⟩ := w.starts
  have text : tag.content.toList ++ rest =
      c :: (more ++ (tag.attributes.flatMap fun a => ' ' :: a.content.toList) ++ rest) := by
    simp [tagChars, name]
  exact ⟨c, _, text, notMarkup⟩

theorem startReadable : (Token.startTag tag.content).Readable := by
  intro more _
  have found := upToBracketOf w.passes (by rfl : outsideQuotes none '>' = none) more
  have text : (Token.startTag tag.content).markup.toList ++ more =
      '<' :: (tag.content.toList ++ '>' :: more) := by simp [Token.markup]
  have still : startOrEmpty tag.content = .startTag tag.content := by
    unfold startOrEmpty
    split
    · rename_i name reversed
      have last : tag.content.toList.getLast? = some '/' := by
        rw [← List.head?_reverse, reversed, List.head?_cons]
      exact absurd rfl (w.contentOpen _ last)
    · rfl
  rw [text, scanHead, scanBracketTag (w.startsMarkup _), scanTag, found, String.ofList_toList,
    closed, still]

theorem emptyReadable : (Token.emptyTag tag.content).Readable := by
  intro more _
  have slashed : (tag.content.toList ++ ['/']).foldlM outsideQuotes none = some none := by
    simp [List.foldlM_append, w.passes, outsideQuotes]
  have found := upToBracketOf slashed (by rfl : outsideQuotes none '>' = none) more
  have text : (Token.emptyTag tag.content).markup.toList ++ more =
      '<' :: (tag.content.toList ++ ['/'] ++ '>' :: more) := by simp [Token.markup]
  have starts : StartsTag (tag.content.toList ++ ['/'] ++ '>' :: more) := by
    rw [List.append_assoc]
    exact w.startsMarkup _
  rw [text, scanHead, scanBracketTag starts, scanTag, found, closed]
  simp [startOrEmpty]

theorem endReadable : (Token.endTag tag.name).Readable := by
  intro more _
  have passes : tag.name.toList.foldlM outsideQuotes none = some none := by
    simpa using unquotedPasses w.unquoted w.inside []
  have found := upToBracketOf passes (by rfl : outsideQuotes none '>' = none) more
  have text : (Token.endTag tag.name).markup.toList ++ more =
      '<' :: '/' :: (tag.name.toList ++ '>' :: more) := by simp [Token.markup]
  have kept : tag.name.toList.reverse.dropWhile isSpace = tag.name.toList.reverse := by
    rw [List.dropWhile_eq_self_iff]
    intro filled spaced
    have member := List.mem_reverse.mp (List.getElem_mem filled)
    rw [w.unspaced _ member] at spaced
    cases spaced
  have name : endName tag.name = tag.name := by
    unfold endName
    rw [kept]
    split
    · rfl
    · rw [List.reverse_reverse, String.ofList_toList]
  rw [text, scanHead, scanBracket, scanTag, found, String.ofList_toList, closed]
  simp [name]

end Tag.Writable

end EdmxPruning.Markup
