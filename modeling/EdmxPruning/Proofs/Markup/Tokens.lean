import Mathlib.Data.List.Chain
import EdmxPruning.Proofs.Markup.Tags

/-! Token lists are read back from their text, if every token is readable and no two texts stand
next to each other, for these would be read as one. -/
namespace EdmxPruning.Markup

theorem markupChars (tokens : List Token) :
    (markup tokens).toList = tokens.flatMap fun t => t.markup.toList := by
  simp [markup, String.toList_join, List.flatMap_map]

theorem markupEndsText {t : Token} (other : t.isText = false) (more : List Char) :
    EndsText (t.markup.toList ++ more) := by
  cases t with
  | leaf l =>
    cases l with
    | text => cases other
    | reference => simp [EndsText, Token.markup, Leaf.markup, textChar]
    | cdata => simp [EndsText, Token.markup, Leaf.markup, textChar]
    | comment => simp [EndsText, Token.markup, Leaf.markup, textChar]
    | instruction => simp [EndsText, Token.markup, Leaf.markup, textChar]
    | doctype => simp [EndsText, Token.markup, Leaf.markup, textChar]
  | startTag => simp [EndsText, Token.markup, textChar]
  | emptyTag => simp [EndsText, Token.markup, textChar]
  | endTag => simp [EndsText, Token.markup, textChar]
  | declaration => simp [EndsText, Token.markup, textChar]

theorem readableFilled {t : Token} (readable : t.Readable) : t.markup.toList ≠ [] := by
  intro empty
  have head := readable [] fun _ => by simp [EndsText]
  rw [empty] at head
  cases head

def Apart (first second : Token) : Prop := first.isText = true → second.isText = false

theorem runReads {tokens : List Token} (readable : ∀ t ∈ tokens, t.Readable)
    (apart : tokens.IsChain Apart) {fuel : Nat} (read : List Token)
    (enough : (tokens.flatMap fun t => t.markup.toList).length < fuel) :
    run fuel read (tokens.flatMap fun t => t.markup.toList) = ⟨read.reverse ++ tokens, none⟩ := by
  induction tokens generalizing fuel read with
  | nil =>
    cases fuel with
    | zero => simp at enough
    | succ fuel => simp [run, scanHead]
  | cons t later ih =>
    cases fuel with
    | zero => simp at enough
    | succ fuel =>
      have own := readable t List.mem_cons_self
      have filled := List.length_pos_iff.mpr (readableFilled own)
      rw [List.flatMap_cons, List.length_append] at enough
      obtain ⟨next, chain⟩ := List.isChain_cons.mp apart
      have ends : t.isText = true → EndsText (later.flatMap fun t => t.markup.toList) := by
        intro text
        cases later with
        | nil => simp [EndsText]
        | cons u rest => exact markupEndsText (next u rfl text) _
      rw [List.flatMap_cons, run, own _ ends]
      simp only
      rw [ih (fun u member => readable u (List.mem_cons_of_mem _ member)) chain _ (by omega)]
      simp

theorem scanReads {tokens : List Token} (readable : ∀ t ∈ tokens, t.Readable)
    (apart : tokens.IsChain Apart) (noMark : (markup tokens).toList.head? ≠ some '\uFEFF') :
    scan (markup tokens) = ⟨tokens, none⟩ := by
  have whole : Text.afterByteOrderMark (markup tokens).toList = (markup tokens).toList := by
    unfold Text.afterByteOrderMark
    split
    · rename_i shape
      simp [shape] at noMark
    · rfl
  unfold scan
  simp only [whole]
  rw [markupChars]
  exact runReads readable apart [] (Nat.lt_succ_self _)

end EdmxPruning.Markup
