import EdmxPruning.Text

/-! Entity types and associations go by their short names: references may carry a namespace or an
alias, and only the last dotted segment identifies what they refer to. -/
namespace EdmxPruning
open Text

structure ShortName where
  text : String
  deriving DecidableEq, Repr

instance : LT ShortName := ⟨fun a b => a.text < b.text⟩
instance (a b : ShortName) : Decidable (a < b) := inferInstanceAs (Decidable (a.text < b.text))

namespace ShortName

theorem ltIrrefl (a : ShortName) : ¬ a < a := String.lt_irrefl a.text

theorem ltTrans {a b c : ShortName} (hab : a < b) (hbc : b < c) : a < c :=
  String.lt_trans hab hbc

theorem ltTrichotomy (a b : ShortName) : a < b ∨ a = b ∨ b < a := by
  rcases Std.lt_trichotomy a.text b.text with h | h | h
  · exact .inl h
  · exact .inr (.inl (by cases a; cases b; cases h; rfl))
  · exact .inr (.inr h)

def ofReferenceChars (cs : List Char) : List Char := afterLast '.' (trim cs)

def ofReference (reference : String) : ShortName := ⟨.ofList (ofReferenceChars reference.toList)⟩

def collectionStart : List Char := "Collection(".toList

/-- The element type of `Collection(T)`, any other type as it stands. -/
def elementType (cs : List Char) : List Char :=
  ((collectionStart.isPrefixOf? cs).bind ([')'].isSuffixOf? ·)).getD cs

def ofReturnType (returnType : String) : ShortName :=
  ⟨.ofList (ofReferenceChars (elementType (trim returnType.toList)))⟩

end ShortName
end EdmxPruning
