import Mathlib.Data.List.DropRight
import EdmxPruning.Metadata.ShortName

/-! What a reference is reduced to. Blanks around it do not count, nor does what stands before its last
dot; a return type counts as the type inside of its `Collection`, if it has one. -/
namespace EdmxPruning

namespace Text

def StartsFilled (cs : List Char) : Prop := ∀ c ∈ cs.head?, blankChar c = false

def EndsFilled (cs : List Char) : Prop := ∀ c ∈ cs.getLast?, blankChar c = false

instance (cs : List Char) : Decidable (StartsFilled cs) :=
  decidable_of_iff (cs.head?.all (!blankChar ·) = true) (by simp [StartsFilled, Option.all_eq_true])

section Trimming

variable {cs front back : List Char} {c : Char}

theorem trimStartFilled (filled : StartsFilled cs) : trimStart cs = cs := by
  cases cs with
  | nil => rfl
  | cons c rest => exact List.dropWhile_cons_of_neg (Bool.eq_false_iff.mp (filled c rfl))

theorem trimStartStarts (cs : List Char) : StartsFilled (trimStart cs) := by
  intro c first
  have own := List.head?_dropWhile_not blankChar cs
  change (cs.dropWhile blankChar).head? = some c at first
  rw [first] at own
  simpa using own

theorem trimEndEnds (cs : List Char) : EndsFilled (trimEnd cs) := by
  intro c last
  rw [trimEnd, List.getLast?_reverse] at last
  exact trimStartStarts cs.reverse c last

theorem trimEndLacks (outside : c ∉ cs) : c ∉ trimEnd cs := fun inside =>
  outside ((List.rdropWhile_prefix blankChar cs).subset inside)

theorem trimStartAround (filled : blankChar c = false) :
    trimStart (front ++ c :: back) = trimStart front ++ c :: back := by
  have stops : trimStart (c :: back) = c :: back := List.dropWhile_cons_of_neg (by simp [filled])
  unfold trimStart at stops ⊢
  rw [List.dropWhile_append, stops]
  split
  case isTrue none => rw [List.isEmpty_iff.mp none]; rfl
  case isFalse => rfl

theorem trimEndAround (filled : blankChar c = false) :
    trimEnd (front ++ c :: back) = front ++ c :: trimEnd back := by
  have turned : (front ++ c :: back).reverse = back.reverse ++ c :: front.reverse := by simp
  have stops : trimStart (back.reverse ++ c :: front.reverse) =
      trimStart back.reverse ++ c :: front.reverse := trimStartAround filled
  unfold trimStart at stops
  unfold trimEnd
  rw [turned, stops]
  simp

theorem trimStarts (cs : List Char) : StartsFilled (trim cs) := by
  intro c first
  obtain ⟨ending, whole⟩ : trim cs <+: trimStart cs := List.rdropWhile_prefix blankChar _
  refine trimStartStarts cs c ?_
  rw [← whole, List.head?_append, first]
  rfl

theorem trimAgain (cs : List Char) : trim (trim cs) = trim cs := by
  have started : trimStart (trim cs) = trim cs := trimStartFilled (trimStarts cs)
  have ended : trimEnd (trim cs) = trim cs := List.rdropWhile_idempotent blankChar (trimStart cs)
  rw [trim, started, ended]

end Trimming

section Segments

variable {mark : Char} {cs front back : List Char}

theorem afterLastAlone (unmarked : mark ∉ cs) : afterLast mark cs = cs := by
  refine List.rtakeWhile_eq_self_iff.mpr fun c inside => ?_
  simpa using fun same : c = mark => unmarked (same ▸ inside)

theorem afterLastMark (unmarked : mark ∉ back) : afterLast mark (front ++ mark :: back) = back := by
  have alone := afterLastAlone unmarked
  have turned : (front ++ mark :: back).reverse = back.reverse ++ mark :: front.reverse := by simp
  have all : ∀ c ∈ back.reverse, (c != mark) = true := fun c inside => by
    simpa using fun same : c = mark => unmarked (same ▸ List.mem_reverse.mp inside)
  rw [afterLast, turned, List.takeWhile_append_of_pos all, List.takeWhile_cons_of_neg (by simp)]
  simp

theorem afterLastUnmarked (mark : Char) (cs : List Char) : mark ∉ afterLast mark cs := fun inside => by
  have other := List.mem_rtakeWhile_imp (p := (· != mark)) inside
  simp at other

theorem afterLastEnds (filled : EndsFilled cs) : EndsFilled (afterLast mark cs) := by
  intro c last
  obtain ⟨before, whole⟩ : afterLast mark cs <:+ cs := List.rtakeWhile_suffix _ _
  refine filled c ?_
  rw [← whole, List.getLast?_append, last]
  rfl

end Segments
end Text

namespace ShortName
open Text

theorem elementTypeOf (inner : List Char) :
    elementType (collectionStart ++ inner ++ [')']) = inner := by
  have started : collectionStart.isPrefixOf? (collectionStart ++ inner ++ [')']) =
      some (inner ++ [')']) := List.isPrefixOf?_eq_some_iff_append_eq.mpr (by simp)
  have ended : [')'].isSuffixOf? (inner ++ [')']) = some inner :=
    List.isSuffixOf?_eq_some_iff_append_eq.mpr rfl
  rw [elementType, started, Option.bind_some, ended]
  rfl

theorem elementTypePlain {cs : List Char}
    (plain : ¬ (collectionStart <+: cs ∧ [')'] <:+ cs)) : elementType cs = cs := by
  unfold elementType
  cases started : collectionStart.isPrefixOf? cs with
  | none => rfl
  | some rest =>
    have whole := List.isPrefixOf?_eq_some_iff_append_eq.mp started
    cases ended : [')'].isSuffixOf? rest with
    | none => simp [ended]
    | some inner =>
      have last := List.isSuffixOf?_eq_some_iff_append_eq.mp ended
      exact absurd ⟨⟨rest, whole⟩, collectionStart ++ inner, by simp [← whole, ← last]⟩ plain

/- What stands before a dot goes, whatever it is, and the blanks behind the name go as well. -/
theorem qualifiedChars {qualifier name : List Char} (undotted : '.' ∉ name) :
    ofReferenceChars (qualifier ++ '.' :: name) = trimEnd name := by
  rw [ofReferenceChars, trim, trimStartAround (by decide), trimEndAround (by decide),
    afterLastMark (trimEndLacks undotted)]

theorem plainChars {name : List Char} (undotted : '.' ∉ name) (filled : StartsFilled name) :
    ofReferenceChars name = trimEnd name := by
  rw [ofReferenceChars, trim, trimStartFilled filled, afterLastAlone (trimEndLacks undotted)]

theorem trimmedChars (cs : List Char) : ofReferenceChars (trim cs) = ofReferenceChars cs := by
  rw [ofReferenceChars, ofReferenceChars, trimAgain]

theorem collectionTrimmed {before inner after : List Char} (blank : ∀ c ∈ before, blankChar c = true)
    (blankToo : ∀ c ∈ after, blankChar c = true) :
    trim (before ++ collectionStart ++ inner ++ ')' :: after) = collectionStart ++ inner ++ [')'] := by
  obtain ⟨letter, more, starts, filled⟩ : ∃ letter more, collectionStart = letter :: more ∧
      blankChar letter = false := ⟨'C', "ollection(".toList, by decide, by decide⟩
  have noneBefore : trimStart before = [] := List.dropWhile_eq_nil_iff.mpr blank
  have noneAfter : trimEnd after = [] := List.rdropWhile_eq_nil_iff.mpr blankToo
  have started : trimStart (before ++ collectionStart ++ inner ++ ')' :: after) =
      collectionStart ++ inner ++ ')' :: after := by
    simp [starts, trimStartAround filled, noneBefore]
  rw [trim, started, trimEndAround (by decide), noneAfter]

end ShortName

open Text ShortName in
theorem referencesReduce :
    (∀ qualifier name : String, '.' ∉ name.toList → StartsFilled name.toList →
      let short := ofReference (qualifier ++ "." ++ name)
      short = ofReference name ∧ EndsFilled short.text.toList ∧
        ∃ blanks, isBlank blanks = true ∧ name = short.text ++ blanks) ∧
    (∀ reference : String, let short := ofReference reference
      '.' ∉ short.text.toList ∧ EndsFilled short.text.toList) ∧
    (∀ before reference after : String, isBlank before = true → isBlank after = true →
      ofReturnType (before ++ "Collection(" ++ reference ++ ")" ++ after) = ofReference reference) ∧
    ∀ returnType : String, ¬ ("Collection(".toList <+: trim returnType.toList ∧
      [')'] <:+ trim returnType.toList) → ofReturnType returnType = ofReference returnType := by
  refine ⟨fun qualifier name undotted filled => ?_, fun reference => ?_,
    fun before reference after blank blankToo => ?_, fun returnType plain => ?_⟩
  · have same : ofReference (qualifier ++ "." ++ name) = ofReference name := by
      have chars : (qualifier ++ "." ++ name).toList = qualifier.toList ++ '.' :: name.toList := by simp
      rw [ofReference, ofReference, chars, qualifiedChars undotted, plainChars undotted filled]
    have chars : (ofReference name).text.toList = trimEnd name.toList := by
      rw [ofReference, String.toList_ofList, plainChars undotted filled]
    refine ⟨same, ?_, .ofList (name.toList.rtakeWhile blankChar), ?_, ?_⟩
    · rw [same, chars]
      exact trimEndEnds name.toList
    · rw [isBlank, String.toList_ofList, List.all_eq_true]
      exact fun c => List.mem_rtakeWhile_imp
    · rw [same, ← String.toList_inj, String.toList_append, chars, String.toList_ofList]
      exact List.rdropWhile_append_rtakeWhile.symm
  · intro short
    have chars : short.text.toList = ofReferenceChars reference.toList := String.toList_ofList
    rw [chars]
    exact ⟨afterLastUnmarked '.' _, afterLastEnds (trimEndEnds _)⟩
  · have chars : (before ++ "Collection(" ++ reference ++ ")" ++ after).toList =
        before.toList ++ collectionStart ++ reference.toList ++ ')' :: after.toList := by
      have starting : "Collection(".toList = collectionStart := rfl
      have closing : ")".toList = [')'] := by decide
      simp only [String.toList_append, starting, closing, List.append_assoc, List.singleton_append]
    rw [ofReturnType, chars, collectionTrimmed (List.all_eq_true.mp blank) (List.all_eq_true.mp blankToo),
      elementTypeOf, ofReference]
  · rw [ofReturnType, elementTypePlain plain, trimmedChars, ofReference]

open Text ShortName in
theorem paddedReferencesReduced :
    (ofReference (" A . B." ++ "." ++ "Order\u2003\n")).text = "Order" ∧
    ofReturnType ("\u3000\t" ++ "Collection(" ++ "A.(B)" ++ ")" ++ "\u0085") = ofReference "A.(B)" ∧
    ofReturnType "Collection(A.B" = ofReference "Collection(A.B" ∧
    '.' ∉ (ofReference "A.B. ").text.toList := by
  obtain ⟨qualified, reduced, collected, plain⟩ := referencesReduce
  obtain ⟨same, _, _⟩ := qualified " A . B." "Order\u2003\n" (by decide) (by decide)
  refine ⟨?_, collected _ _ _ (by decide) (by decide), plain _ (by decide), (reduced _).1⟩
  rw [same]
  decide

end EdmxPruning
