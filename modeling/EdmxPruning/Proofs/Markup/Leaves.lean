import Mathlib.Data.List.DropRight
import EdmxPruning.Proofs.Markup.Closing

/-! Leaves are read back from their markup. A leaf that the scan has yielded once is yielded again
wherever its markup stands; only a text must be followed by something that ends it. -/
namespace EdmxPruning.Markup

def Token.Scanned (t : Token) : Prop := ∃ cs rest, scanHead cs = .token t rest

def Leaf.isText : Leaf → Bool
  | .text _ => true
  | _ => false

def Token.isText : Token → Bool
  | .leaf l => l.isText
  | _ => false

def EndsText (more : List Char) : Prop := ∀ c ∈ more.head?, textChar c = false

def Token.Readable (t : Token) : Prop :=
  ∀ more, (t.isText = true → EndsText more) → scanHead (t.markup.toList ++ more) = .token t more

/- A reader yields a token again from a text and what closes it. -/
def Again (scanner : List Char → Head) (t : Token) (closedText : List Char) : Prop :=
  ∀ more, scanner (closedText ++ more) = .token t more

theorem closedToken {fault : MarkupFault} {token : String → Token} {t : Token} {rest : List Char}
    {found : Option (String × List Char)} (h : closed fault token found = .token t rest) :
    ∃ content, found = some (content, rest) ∧ t = token content := by
  cases found with
  | none => cases h
  | some pair =>
    obtain ⟨content, left⟩ := pair
    cases h
    exact ⟨content, rfl, rfl⟩

theorem commentAgain {cs rest : List Char} {t : Token} (h : scanComment cs = .token t rest) :
    ∃ content, t = .leaf (.comment content) ∧
      Again scanComment t (content.toList ++ ['-', '-', '>']) := by
  obtain ⟨content, found, same⟩ := closedToken h
  refine ⟨content, same, ?_⟩
  intro more
  have again := (closesAgain found).2 more
  simp only [List.replicate, List.append_assoc, List.cons_append, List.nil_append] at again
  simp [scanComment, again, closed, same]

theorem cdataAgain {cs rest : List Char} {t : Token} (h : scanCData cs = .token t rest) :
    ∃ content, t = .leaf (.cdata content) ∧
      Again scanCData t (content.toList ++ [']', ']', '>']) := by
  obtain ⟨content, found, same⟩ := closedToken h
  refine ⟨content, same, ?_⟩
  intro more
  have again := (closesAgain found).2 more
  simp only [List.replicate, List.append_assoc, List.cons_append, List.nil_append] at again
  simp [scanCData, again, closed, same]

theorem instructionAgain {cs rest : List Char} {t : Token}
    (h : scanInstruction cs = .token t rest) :
    ∃ content, t = instruction content ∧
      Again scanInstruction t (content.toList ++ ['?', '>']) := by
  unfold scanInstruction at h
  split at h
  · cases h
  · rename_i notEmpty
    obtain ⟨content, found, same⟩ := closedToken h
    obtain ⟨⟨after, split⟩, again⟩ := closesAgain found
    refine ⟨content, same, ?_⟩
    intro more
    have next := again more
    simp only [List.replicate, List.append_assoc, List.cons_append, List.nil_append] at next split
    -- What the content starts with is what the instruction started with.
    have starts : (content.toList ++ '?' :: '>' :: more).head? ≠ some '>' := by
      cases shape : content.toList with
      | nil => simp
      | cons c inside => simpa [split, shape] using notEmpty
    rw [List.append_assoc, List.cons_append, List.cons_append, List.nil_append, scanInstruction,
      if_neg starts, next, same]
    rfl

theorem instructionLeaf {content : String} {l : Leaf} (h : instruction content = .leaf l) :
    l = .instruction content := by
  unfold instruction at h
  split at h
  · cases h
  · split at h
    · cases h
    · cases h; rfl
  · cases h; rfl

theorem isSpaceBalanced {c : Char} (h : isSpace c = true) (depth : Nat) :
    balanced depth c = some depth := by
  have notOpen : c ≠ '<' := by intro same; subst same; cases h
  have notClose : c ≠ '>' := by intro same; subst same; cases h
  simp [balanced, notOpen, notClose]

theorem dropSpaceBalanced (body : List Char) (depth : Nat) :
    (body.dropWhile isSpace).foldlM balanced depth = body.foldlM balanced depth := by
  induction body with
  | nil => rfl
  | cons c more ih =>
    by_cases space : isSpace c = true
    · rw [List.dropWhile_cons_of_pos space, ih, List.foldlM_cons, isSpaceBalanced space]
      rfl
    · rw [List.dropWhile_cons_of_neg space]

theorem doctypeAgain {cs rest : List Char} {t : Token} (h : scanDoctype cs = .token t rest) :
    ∃ content, t = .leaf (.doctype content) ∧
      Again scanDoctype t (' ' :: content.toList ++ ['>']) := by
  unfold scanDoctype at h
  cases found : upToClose balanced 0 0 [] cs with
  | none => simp [found] at h
  | some pair =>
    obtain ⟨read, left⟩ := pair
    obtain ⟨c, final, _, passes, stops⟩ := upToBracketParts found
    obtain ⟨_, bracket⟩ := balancedStops stops
    subst bracket
    cases named : read.toList.dropWhile isSpace with
    | nil => simp [found, named] at h
    | cons first inside =>
      simp only [found, named, Head.token.injEq] at h
      refine ⟨.ofList (first :: inside), h.1.symm, ?_⟩
      intro more
      have spaced : (' ' :: first :: inside).foldlM balanced 0 = some final := by
        rw [← named, List.foldlM_cons, isSpaceBalanced (by decide)]
        exact (dropSpaceBalanced read.toList 0).trans passes
      have again := upToBracketOf spaced stops more
      have stays : (first :: inside).dropWhile isSpace = first :: inside := by
        rw [← named, List.dropWhile_idempotent]
      have space : isSpace ' ' = true := by decide
      rw [← h.1, String.toList_ofList, List.append_assoc, scanDoctype]
      simp only [List.cons_append, List.nil_append] at again ⊢
      simp only [again, String.toList_ofList, List.dropWhile_cons_of_pos space, stays]

theorem stopsAt {p : Char → Bool} {body : List Char} {c : Char}
    (inside : ∀ x ∈ body, p x = true) (stop : p c = false) (rest : List Char) :
    (body ++ c :: rest).takeWhile p = body ∧ (body ++ c :: rest).dropWhile p = c :: rest := by
  constructor
  · rw [List.takeWhile_append_of_pos inside, List.takeWhile_cons_of_neg (by simp [stop])]
    exact List.append_nil body
  · rw [List.dropWhile_append_of_pos inside, List.dropWhile_cons_of_neg (by simp [stop])]

theorem referenceAgain {cs rest : List Char} {t : Token} (h : scanReference cs = .token t rest) :
    ∃ name, t = .leaf (.reference name) ∧ Again scanReference t (name.toList ++ [';']) := by
  unfold scanReference at h
  split at h
  · cases h
    refine ⟨_, rfl, ?_⟩
    intro more
    have inside : ∀ c ∈ cs.takeWhile (!referenceStop ·), (!referenceStop c) = true :=
      fun c member => List.mem_takeWhile_imp (p := fun c => !referenceStop c) member
    obtain ⟨taken, left⟩ := stopsAt inside (by decide : (!referenceStop ';') = false) more
    rw [String.toList_ofList, List.append_assoc, List.singleton_append, scanReference, taken, left]
    rfl
  · cases h

theorem scanHeadText {c : Char} {more : List Char} (own : textChar c = true) :
    scanHead (c :: more) = .token (.leaf (.text (.ofList ((c :: more).takeWhile textChar))))
      ((c :: more).dropWhile textChar) := by
  have notOpen : c ≠ '<' := by intro same; subst same; cases own
  have notReference : c ≠ '&' := by intro same; subst same; cases own
  unfold scanHead
  split
  · contradiction
  · simp_all
  · simp_all
  · rfl

theorem textAgain {text more : List Char} (filled : text ≠ [])
    (inside : ∀ c ∈ text, textChar c = true) (ends : EndsText more) :
    scanHead (text ++ more) = .token (.leaf (.text (.ofList text))) more := by
  have split : (text ++ more).takeWhile textChar = text ∧
      (text ++ more).dropWhile textChar = more := by
    cases more with
    | nil => simpa [List.takeWhile_eq_self_iff, List.dropWhile_eq_nil_iff] using inside
    | cons c later => exact stopsAt inside (ends c rfl) later
  obtain ⟨first, rest, shape⟩ := List.exists_cons_of_ne_nil filled
  subst shape
  rw [List.cons_append] at split ⊢
  rw [scanHeadText (inside first List.mem_cons_self), split.1, split.2]

def StartsTag (cs : List Char) : Prop := ∃ c more, cs = c :: more ∧ c ≠ '!' ∧ c ≠ '?' ∧ c ≠ '/'

theorem scanBracketTag {cs : List Char} (starts : StartsTag cs) :
    scanBracket cs = scanTag startOrEmpty cs := by
  obtain ⟨c, more, shape, notBang, notInstruction, notEnd⟩ := starts
  subst shape
  unfold scanBracket
  split <;> simp_all

theorem scanBangParts {cs rest : List Char} {t : Token} (h : scanBang cs = .token t rest) :
    ∃ more, scanCData more = .token t rest ∨ scanComment more = .token t rest ∨
      scanDoctype more = .token t rest := by
  unfold scanBang at h
  split at h
  · split at h
    · exact ⟨_, .inl h⟩
    · cases h
  · split at h
    · exact ⟨_, .inr (.inl h)⟩
    · cases h
  · split at h
    · exact ⟨_, .inr (.inr h)⟩
    · cases h
  · split at h
    · exact ⟨_, .inr (.inr h)⟩
    · cases h
  · cases h

theorem scanBracketParts {cs rest : List Char} {t : Token} (h : scanBracket cs = .token t rest) :
    (∃ more, scanBang more = .token t rest) ∨ (∃ more, scanInstruction more = .token t rest) ∨
      (∃ content, t = .endTag content) ∨ (StartsTag cs ∧ scanTag startOrEmpty cs = .token t rest) := by
  unfold scanBracket at h
  split at h
  · cases h
  · exact .inl ⟨_, h⟩
  · exact .inr (.inl ⟨_, h⟩)
  · obtain ⟨content, _, same⟩ := closedToken h
    exact .inr (.inr (.inl ⟨_, same⟩))
  · rename_i notEmpty notBang notInstruction notEnd
    refine .inr (.inr (.inr ⟨?_, h⟩))
    cases cs with
    | nil => exact absurd rfl notEmpty
    | cons c more =>
      refine ⟨c, more, rfl, ?_, ?_, ?_⟩
      · intro same
        exact notBang more (same ▸ rfl)
      · intro same
        exact notInstruction more (same ▸ rfl)
      · intro same
        exact notEnd more (same ▸ rfl)

theorem scanHeadParts {cs rest : List Char} {t : Token} (h : scanHead cs = .token t rest) :
    (∃ more, scanBracket more = .token t rest) ∨ (∃ more, scanReference more = .token t rest) ∨
      ∃ text, t = .leaf (.text (.ofList text)) ∧ text ≠ [] ∧ ∀ c ∈ text, textChar c = true := by
  cases cs with
  | nil => cases h
  | cons c more =>
    by_cases own : textChar c = true
    · rw [scanHeadText own] at h
      cases h
      refine .inr (.inr ⟨_, rfl, ?_, fun c member => List.mem_takeWhile_imp member⟩)
      rw [List.takeWhile_cons_of_pos own]
      exact List.cons_ne_nil _ _
    · unfold scanHead at h
      split at h
      · cases h
      · exact .inl ⟨_, h⟩
      · exact .inr (.inl ⟨_, h⟩)
      · simp_all [textChar]

theorem startOrEmptyTag (content : String) :
    startOrEmpty content = .startTag content ∨ ∃ name, startOrEmpty content = .emptyTag name := by
  unfold startOrEmpty
  split
  · exact .inr ⟨_, rfl⟩
  · exact .inl rfl

/- A text is filled and has no markup in it; of any other leaf it is enough that it is readable. -/
def Leaf.Writable : Leaf → Prop
  | .text content => content.toList ≠ [] ∧ ∀ c ∈ content.toList, textChar c = true
  | l => (Token.leaf l).Readable

theorem scannedLeaf {l : Leaf} (scanned : (Token.leaf l).Scanned) : l.Writable := by
  obtain ⟨cs, rest, head⟩ := scanned
  rcases scanHeadParts head with ⟨_, bracket⟩ | ⟨_, reference⟩ | ⟨text, same, filled, inside⟩
  · rcases scanBracketParts bracket with ⟨_, bang⟩ | ⟨_, told⟩ | ⟨_, other⟩ | ⟨_, tag⟩
    · obtain ⟨_, cdata | comment | doctype⟩ := scanBangParts bang
      · obtain ⟨content, same, again⟩ := cdataAgain cdata
        cases same
        intro more _
        simpa [Token.markup, Leaf.markup, scanHead, scanBracket, scanBang, List.isPrefixOf?]
          using again more
      · obtain ⟨content, same, again⟩ := commentAgain comment
        cases same
        intro more _
        simpa [Token.markup, Leaf.markup, scanHead, scanBracket, scanBang, List.isPrefixOf?]
          using again more
      · obtain ⟨content, same, again⟩ := doctypeAgain doctype
        cases same
        intro more _
        simpa [Token.markup, Leaf.markup, scanHead, scanBracket, scanBang] using again more
    · obtain ⟨content, same, again⟩ := instructionAgain told
      cases instructionLeaf same.symm
      intro more _
      simpa [Token.markup, Leaf.markup, scanHead, scanBracket] using again more
    · cases other
    · obtain ⟨content, _, same⟩ := closedToken tag
      rcases startOrEmptyTag content with start | ⟨name, empty⟩
      · cases same.trans start
      · cases same.trans empty
  · obtain ⟨name, same, again⟩ := referenceAgain reference
    cases same
    intro more _
    simpa [Token.markup, Leaf.markup, scanHead] using again more
  · cases same
    exact ⟨by simpa using filled, by simpa using inside⟩

theorem leafReadable {l : Leaf} (w : l.Writable) : (Token.leaf l).Readable := by
  cases l with
  | text content =>
    intro more ends
    have again := textAgain w.1 w.2 (ends rfl)
    rwa [String.ofList_toList] at again
  | reference => exact w
  | cdata => exact w
  | comment => exact w
  | instruction => exact w
  | doctype => exact w

end EdmxPruning.Markup
