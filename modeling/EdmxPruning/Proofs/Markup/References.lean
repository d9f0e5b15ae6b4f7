import EdmxPruning.Markup.Reference
import EdmxPruning.Proofs.Markup.Attributes

/-! What a value says and what is written for it. The expansion of a value is a relation with one rule for
references and one for all other characters. No name of a reference has a quote in it, so writing changes
only quotes outside of references, and what it puts there refers to a quote. -/
namespace EdmxPruning
namespace Text

theorem quoteNoDigit (base : Nat) : digitValue? base '"' = none := by
  simp [digitValue?]

theorem numberUnquoted {base n : Nat} {digits : List Char} (read : number? base digits = some n) :
    '"' ∉ digits := by
  have stops (cs : List Char) (start : Nat) (quoted : '"' ∈ cs) :
      cs.foldlM (fun n c => (digitValue? base c).map (n * base + ·)) start = none := by
    induction cs generalizing start with
    | nil => cases quoted
    | cons c more ih =>
      rw [List.foldlM_cons]
      rcases List.mem_cons.mp quoted with here | later
      · rw [← here, quoteNoDigit]
        rfl
      · cases digitValue? base c with
        | none => rfl
        | some value => exact ih _ later
  intro quoted
  unfold number? at read
  split at read
  · cases read
  · rw [stops digits 0 quoted] at read
    cases read

end Text
namespace Markup
open Text (number? numberUnquoted)

theorem referenceUnquoted {name : List Char} {c : Char} (named : referenced? name = some c) :
    '"' ∉ name := by
  unfold referenced? at named
  split at named
  next digits =>
    obtain ⟨n, read, _⟩ := Option.bind_eq_some_iff.mp named
    simpa using numberUnquoted read
  next digits _ =>
    obtain ⟨n, read, _⟩ := Option.bind_eq_some_iff.mp named
    simpa using numberUnquoted read
  next =>
    intro quoted
    have known (text : String) (plain : '"' ∉ text.toList) : (String.ofList name == text) = false := by
      refine beq_eq_false_iff_ne.mpr fun same => plain ?_
      rw [← same, String.toList_ofList]
      exact quoted
    simp [List.lookup_cons, known] at named

inductive Expands : List Char → List Char → Prop where
  | done : Expands [] []
  | reference {name rest c cs} (closed : ∀ x ∈ name, referenceEnd x = false)
      (named : referenced? name = some c) (after : Expands rest cs) :
      Expands ('&' :: name ++ ';' :: rest) (c :: cs)
  | plain {c rest cs} (literal : c ≠ '&') (after : Expands rest cs) : Expands (c :: rest) (c :: cs)

theorem expandPlain {fuel : Nat} {c : Char} {more : List Char} (literal : c ≠ '&') :
    expandFrom? (fuel + 1) (c :: more) = (expandFrom? fuel more).map (c :: ·) := by
  rw [expandFrom?]
  exact fun same => absurd same literal

theorem expandsOf {fuel : Nat} {cs value : List Char} (read : expandFrom? fuel cs = some value) :
    Expands cs value := by
  induction fuel generalizing cs value with
  | zero => cases read
  | succ fuel ih =>
    cases cs with
    | nil => cases read; exact .done
    | cons c more =>
      by_cases literal : c = '&'
      · subst literal
        simp only [expandFrom?] at read
        split at read
        next rest stops =>
          obtain ⟨c, named, inner⟩ := Option.bind_eq_some_iff.mp read
          obtain ⟨cs, after, same⟩ := Option.bind_eq_some_iff.mp inner
          cases same
          obtain ⟨split, closed⟩ := spanParts stops
          rw [split]
          exact .reference (by simpa using closed) named (ih after)
        next => cases read
      · rw [expandPlain literal] at read
        obtain ⟨cs, after, same⟩ := Option.map_eq_some_iff.mp read
        exact same ▸ .plain literal (ih after)

theorem Expands.read {cs value : List Char} (expands : Expands cs value) {fuel : Nat}
    (enough : cs.length < fuel) : expandFrom? fuel cs = some value := by
  induction fuel generalizing cs value with
  | zero => exact absurd enough (Nat.not_lt_zero _)
  | succ fuel ih =>
    cases expands with
    | done => rfl
    | @reference name rest c cs closed named after =>
      have later : expandFrom? fuel rest = some cs := ih after (by simp at enough; omega)
      obtain ⟨taken, left⟩ := stopsAt (p := (!referenceEnd ·)) (c := ';') (by simpa using closed)
        (by decide) rest
      rw [List.cons_append, expandFrom?, left, taken]
      simp [named, later]
    | plain literal after =>
      rw [expandPlain literal, ih after (by simp at enough; omega), Option.map_some]

theorem expandIff {cs value : List Char} : expand? cs = some value ↔ Expands cs value :=
  ⟨expandsOf, fun expands => expands.read (Nat.lt_succ_self _)⟩

def quoteFree (cs : List Char) : List Char :=
  cs.flatMap fun c => if c = '"' then "&quot;".toList else [c]

theorem quoteSafeChars (raw : String) : (quoteSafe raw).toList = quoteFree raw.toList :=
  String.toList_ofList

theorem quoteFreeKeeps {cs : List Char} (unquoted : '"' ∉ cs) : quoteFree cs = cs := by
  have same : quoteSafe (.ofList cs) = .ofList cs := quoteSafeOf (by rwa [String.toList_ofList])
  have chars := congrArg String.toList same
  rwa [quoteSafeChars, String.toList_ofList] at chars

theorem quoteFreeAppend (front back : List Char) :
    quoteFree (front ++ back) = quoteFree front ++ quoteFree back :=
  List.flatMap_append

theorem Expands.quoteFree {cs value : List Char} (expands : Expands cs value) :
    Expands (quoteFree cs) value := by
  induction expands with
  | done => exact .done
  | @reference name rest c cs closed named after ih =>
    have split : '&' :: name ++ ';' :: rest = ('&' :: name ++ [';']) ++ rest := by simp
    have kept : Markup.quoteFree ('&' :: name ++ [';']) = '&' :: name ++ [';'] :=
      quoteFreeKeeps (by simp [referenceUnquoted named])
    rw [split, quoteFreeAppend, kept, List.append_assoc]
    exact .reference closed named ih
  | @plain c rest cs literal after ih =>
    rw [← List.singleton_append, quoteFreeAppend]
    by_cases quote : c = '"'
    · subst quote
      have named : referenced? ['q', 'u', 'o', 't'] = some '"' := by decide
      exact .reference (by simp [referenceEnd]) named ih
    · rw [quoteFreeKeeps (by simpa using Ne.symm quote)]
      exact .plain literal ih

/- A value that can be expanded, or that holds no quote, is written with the same meaning. -/
def Attribute.Legible (a : Attribute) : Prop := (expand? a.raw.toList).isSome = true ∨ '"' ∉ a.raw.toList

theorem writtenValue {a : Attribute} (legible : a.Legible) : a.written.value = a.value := by
  by_cases unquoted : '"' ∉ a.raw.toList
  · rw [Attribute.written, quoteSafeOf unquoted]
  · obtain ⟨value, read⟩ := Option.isSome_iff_exists.mp (legible.resolve_right unquoted)
    have again : expand? a.written.raw.toList = some value := by
      rw [Attribute.written, quoteSafeChars]
      exact expandIff.mpr (expandIff.mp read).quoteFree
    rw [Attribute.value, Attribute.value, read, again]

end Markup
end EdmxPruning
