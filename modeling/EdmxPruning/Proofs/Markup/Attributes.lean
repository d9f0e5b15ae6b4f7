import EdmxPruning.Proofs.Markup.Leaves

/-! Attributes are read back from what a tag writes for them. The scan for the end of the tag and
the reader of its attributes open and close the same quotes, as long as no key has a quote in it. -/
namespace EdmxPruning.Markup

def Unquoted (cs : List Char) : Prop := ∀ c ∈ cs, c ≠ '"' ∧ c ≠ '\''

theorem unquotedParts {front rest : List Char} {final : Option Char} (plain : Unquoted front)
    (passes : (front ++ rest).foldlM outsideQuotes none = some final) :
    '>' ∉ front ∧ rest.foldlM outsideQuotes none = some final := by
  induction front with
  | nil => exact ⟨List.not_mem_nil, passes⟩
  | cons c more ih =>
    obtain ⟨notDouble, notSingle⟩ := plain c List.mem_cons_self
    rw [List.cons_append, List.foldlM_cons] at passes
    by_cases bracket : c = '>'
    · simp [outsideQuotes, bracket] at passes
    · simp only [outsideQuotes, bracket, notDouble, notSingle, or_self, if_false,
        Option.bind_eq_bind, Option.bind_some] at passes
      obtain ⟨inside, later⟩ := ih (fun x hx => plain x (List.mem_cons_of_mem _ hx)) passes
      exact ⟨by simp [Ne.symm bracket, inside], later⟩

theorem unquotedPasses {front : List Char} (plain : Unquoted front) (inside : '>' ∉ front)
    (rest : List Char) :
    (front ++ rest).foldlM outsideQuotes none = rest.foldlM outsideQuotes none := by
  induction front with
  | nil => rfl
  | cons c more ih =>
    obtain ⟨notDouble, notSingle⟩ := plain c List.mem_cons_self
    simp only [List.mem_cons, not_or] at inside
    rw [List.cons_append, List.foldlM_cons]
    simp only [outsideQuotes, Ne.symm inside.1, notDouble, notSingle, or_self, if_false,
      Option.bind_eq_bind, Option.bind_some]
    exact ih (fun x hx => plain x (List.mem_cons_of_mem _ hx)) inside.2

theorem quotedPasses {quote : Char} (marks : quote = '"' ∨ quote = '\'') {raw : List Char}
    (inside : quote ∉ raw) (rest : List Char) :
    (quote :: raw ++ quote :: rest).foldlM outsideQuotes none =
      rest.foldlM outsideQuotes none := by
  have closes : (raw ++ quote :: rest).foldlM outsideQuotes (some quote) =
      rest.foldlM outsideQuotes none := by
    induction raw with
    | nil => simp [outsideQuotes]
    | cons c more ih =>
      simp only [List.mem_cons, not_or] at inside
      rw [List.cons_append, List.foldlM_cons]
      simp only [outsideQuotes, Ne.symm inside.1, if_false, Option.bind_eq_bind, Option.bind_some]
      exact ih inside.2
  have notBracket : quote ≠ '>' := by
    rcases marks with same | same <;> subst same <;> decide
  rw [List.cons_append, List.foldlM_cons]
  simpa [outsideQuotes, notBracket, marks] using closes

theorem spaceUnquoted {cs : List Char} (space : ∀ c ∈ cs, isSpace c = true) : Unquoted cs := by
  intro c member
  have own := space c member
  constructor <;>
    · intro same
      subst same
      cases own

theorem quoteSafeUnquoted (raw : String) : '"' ∉ (quoteSafe raw).toList := by
  unfold quoteSafe
  rw [String.toList_ofList, List.mem_flatMap]
  intro given
  obtain ⟨c, _, inside⟩ := given
  by_cases quote : c = '"'
  · simp [quote] at inside
  · simp [quote] at inside
    exact quote inside.symm

theorem quoteSafeOf {raw : String} (safe : '"' ∉ raw.toList) : quoteSafe raw = raw := by
  have kept (cs : List Char) (h : '"' ∉ cs) :
      (cs.flatMap fun c => if c = '"' then "&quot;".toList else [c]) = cs := by
    induction cs with
    | nil => rfl
    | cons c more ih =>
      simp only [List.mem_cons, not_or] at h
      rw [List.flatMap_cons, if_neg (Ne.symm h.1), ih h.2]
      rfl
  rw [quoteSafe, kept _ safe, String.ofList_toList]

def Attribute.written (a : Attribute) : Attribute := ⟨a.key, quoteSafe a.raw⟩

theorem writtenContent (a : Attribute) : a.written.content = a.content := by
  unfold Attribute.content Attribute.written
  rw [quoteSafeOf (quoteSafeUnquoted a.raw)]

/- A key starts with no space and goes on up to a space or an equals sign. -/
def KeyShape (key : List Char) : Prop :=
  ∃ first more, key = first :: more ∧ isSpace first = false ∧ ∀ c ∈ more, keyChar c = true

theorem bindOk {ε α β : Type} {x : Except ε α} {f : α → β} {b : β}
    (h : (do let a ← x; .ok (f a)) = (.ok b : Except ε β)) : ∃ a, x = .ok a ∧ b = f a := by
  cases x with
  | error e => cases h
  | ok a => cases h; exact ⟨a, rfl, rfl⟩

theorem spanParts {p : Char → Bool} {cs left : List Char} (h : cs.dropWhile p = left) :
    cs = cs.takeWhile p ++ left ∧ ∀ c ∈ cs.takeWhile p, p c = true := by
  subst h
  exact ⟨List.takeWhile_append_dropWhile.symm, fun c member => List.mem_takeWhile_imp member⟩

theorem dropStops {p : Char → Bool} {cs rest : List Char} {c : Char}
    (h : cs.dropWhile p = c :: rest) : p c = false := by
  have stays : (c :: rest).dropWhile p = c :: rest := by rw [← h, List.dropWhile_idempotent]
  simpa [List.dropWhile_eq_self_iff] using stays

/- One attribute and what it leaves, in the order in which they stand. -/
theorem readAttributesParts {total fuel : Nat} {seen : List (List Char × Nat)} {cs : List Char}
    {attributes : List Attribute}
    (ok : readAttributes total (fuel + 1) seen cs = .ok attributes) :
    attributes = [] ∨ ∃ before key gap after quote raw rest start later,
      cs = (before ++ key ++ gap ++ '=' :: after) ++ (quote :: raw ++ quote :: rest) ∧
      (∀ c ∈ before ++ gap ++ after, isSpace c = true) ∧ KeyShape key ∧
      seen.lookup key = none ∧ (quote = '"' ∨ quote = '\'') ∧ quote ∉ raw ∧
      readAttributes total fuel ((key, start) :: seen) rest = .ok later ∧
      attributes = ⟨.ofList key, .ofList raw⟩ :: later := by
  unfold readAttributes at ok
  split at ok
  · cases ok
    exact .inl rfl
  · rename_i first more started
    simp only at ok
    split at ok
    · rename_i value equals
      split at ok
      · cases ok
      · cases ok
      · rename_i quote inside new opened
        split at ok
        · rename_i marks
          split at ok
          · cases ok
          · rename_i c rest ended
            obtain ⟨later, next, same⟩ := bindOk ok
            have closing : c = quote := by simpa using dropStops ended
            subst closing
            obtain ⟨split, before⟩ := spanParts started
            obtain ⟨splitKey, key⟩ := spanParts (rfl : more.dropWhile keyChar = _)
            obtain ⟨splitGap, gap⟩ := spanParts equals
            obtain ⟨splitAfter, after⟩ := spanParts opened
            obtain ⟨splitRaw, raw⟩ := spanParts ended
            refine .inr ⟨cs.takeWhile isSpace, first :: more.takeWhile keyChar,
              (more.dropWhile keyChar).takeWhile isSpace, value.takeWhile isSpace, c,
              inside.takeWhile (· != c), rest, _, later, ?_, ?_, ?_, new, marks, ?_, next, same⟩
            · -- every part holds the ones after it, so they are put together from the last one on
              rw [splitRaw] at splitAfter
              rw [splitAfter] at splitGap
              rw [splitGap] at splitKey
              rw [splitKey] at split
              simpa using split
            · simp only [List.mem_append]
              intro x given
              rcases given with (hx | hx) | hx
              · exact before x hx
              · exact gap x hx
              · exact after x hx
            · exact ⟨first, _, rfl, dropStops started, key⟩
            · intro member
              simpa using raw c member
        · cases ok
    · cases ok

theorem lookupNew {key other : List Char} {start : Nat} {seen : List (List Char × Nat)}
    (h : ((key, start) :: seen).lookup other = none) :
    other ≠ key ∧ seen.lookup other = none := by
  rw [List.lookup_cons] at h
  by_cases same : other = key
  · simp [same] at h
  · simp only [beq_false_of_ne same] at h
    exact ⟨same, h⟩

structure Keys (seen : List (List Char × Nat)) (attributes : List Attribute) : Prop where
  shape : ∀ a ∈ attributes, KeyShape a.key.toList
  unquoted : ∀ a ∈ attributes, Unquoted a.key.toList
  inside : ∀ a ∈ attributes, '>' ∉ a.key.toList
  new : ∀ a ∈ attributes, seen.lookup a.key.toList = none
  distinct : (attributes.map fun a => a.key.toList).Nodup

theorem Keys.tail {seen : List (List Char × Nat)} {a : Attribute} {later : List Attribute}
    (keys : Keys seen (a :: later)) (start : Nat) : Keys ((a.key.toList, start) :: seen) later where
  shape b member := keys.shape b (List.mem_cons_of_mem _ member)
  unquoted b member := keys.unquoted b (List.mem_cons_of_mem _ member)
  inside b member := keys.inside b (List.mem_cons_of_mem _ member)
  new b member := by
    have different : b.key.toList ≠ a.key.toList := by
      intro same
      have distinct := keys.distinct
      rw [List.map_cons, List.nodup_cons] at distinct
      exact distinct.1 (List.mem_map.mpr ⟨b, member, same⟩)
    rw [List.lookup_cons, beq_false_of_ne different]
    exact keys.new b (List.mem_cons_of_mem _ member)
  distinct := (List.nodup_cons.mp keys.distinct).2

theorem readAttributesKeys {total fuel : Nat} {seen : List (List Char × Nat)} {cs : List Char}
    {attributes : List Attribute} (ok : readAttributes total fuel seen cs = .ok attributes)
    (unquoted : ∀ a ∈ attributes, Unquoted a.key.toList)
    (passes : cs.foldlM outsideQuotes none = some none) : Keys seen attributes := by
  have empty (seen : List (List Char × Nat)) : Keys seen [] := by constructor <;> simp
  induction fuel generalizing seen cs attributes with
  | zero => cases ok; exact empty seen
  | succ fuel ih =>
    rcases readAttributesParts ok with none | ⟨before, key, gap, after, quote, raw, rest, start,
      later, split, spaces, shape, new, marks, closed, next, same⟩
    · rw [none]; exact empty seen
    · subst same
      have plainKey : Unquoted key := by simpa using unquoted _ List.mem_cons_self
      have space := spaceUnquoted spaces
      have plain : Unquoted (before ++ key ++ gap ++ '=' :: after) := by
        intro c member
        simp only [List.mem_append, List.mem_cons] at member
        rcases member with ((inBefore | inKey) | inGap) | equals | inAfter
        · exact space c (by simp [inBefore])
        · exact plainKey c inKey
        · exact space c (by simp [inGap])
        · exact equals ▸ by decide
        · exact space c (by simp [inAfter])
      rw [split] at passes
      obtain ⟨inside, quoted⟩ := unquotedParts plain passes
      rw [quotedPasses marks closed] at quoted
      have keys := ih next (fun a member => unquoted a (List.mem_cons_of_mem _ member)) quoted
      have keyInside : '>' ∉ key := fun member => inside (by simp [member])
      refine ⟨?_, unquoted, ?_, ?_, ?_⟩
      · simpa [shape] using keys.shape
      · simpa [keyInside] using keys.inside
      · intro a member
        rcases List.mem_cons.mp member with same | inLater
        · rw [same, String.toList_ofList]
          exact new
        · exact (lookupNew (keys.new a inLater)).2
      · rw [List.map_cons, List.nodup_cons, List.mem_map, String.toList_ofList]
        refine ⟨?_, keys.distinct⟩
        intro given
        obtain ⟨a, member, same⟩ := given
        exact (lookupNew (keys.new a member)).1 same

theorem contentChars (a : Attribute) :
    a.content.toList = a.key.toList ++ '=' :: '"' :: (quoteSafe a.raw).toList ++ ['"'] := by
  simp [Attribute.content]

theorem readAttributeOf (total fuel : Nat) {seen : List (List Char × Nat)} {a : Attribute}
    (shape : KeyShape a.key.toList) (new : seen.lookup a.key.toList = none) (rest : List Char) :
    ∃ start, readAttributes total (fuel + 1) seen (' ' :: a.content.toList ++ rest) =
      (readAttributes total fuel ((a.key.toList, start) :: seen) rest).map (a.written :: ·) := by
  obtain ⟨first, more, key, notSpace, keyChars⟩ := shape
  have safe : ∀ c ∈ (quoteSafe a.raw).toList, (c != '"') = true := by
    intro c member
    have different : c ≠ '"' := fun same => quoteSafeUnquoted a.raw (same ▸ member)
    simpa using different
  have text : ' ' :: a.content.toList ++ rest =
      ' ' :: first :: (more ++ '=' :: '"' :: ((quoteSafe a.raw).toList ++ '"' :: rest)) := by
    simp [contentChars, key]
  obtain ⟨taken, left⟩ := stopsAt keyChars (by decide : keyChar '=' = false)
    ('"' :: ((quoteSafe a.raw).toList ++ '"' :: rest))
  obtain ⟨value, remaining⟩ := stopsAt safe (by decide : ('"' != '"') = false) rest
  have space : isSpace ' ' = true := by decide
  have equals : ¬ isSpace '=' = true := by decide
  have opening : ¬ isSpace '"' = true := by decide
  rw [text, readAttributes]
  simp only [List.dropWhile_cons_of_pos space, notSpace, Bool.false_eq_true, not_false_eq_true,
    List.dropWhile_cons_of_neg, taken, left, equals, opening, ← key, new, value, remaining, true_or,
    if_true, String.ofList_toList]
  generalize total - utf8Length _ = start
  refine ⟨start, ?_⟩
  cases readAttributes total fuel ((a.key.toList, start) :: seen) rest <;> rfl

theorem readAttributesWritten (total : Nat) {fuel : Nat} {seen : List (List Char × Nat)}
    {attributes : List Attribute} (keys : Keys seen attributes)
    (enough : attributes.length ≤ fuel) :
    readAttributes total fuel seen (attributes.flatMap fun a => ' ' :: a.content.toList) =
      .ok (attributes.map Attribute.written) := by
  induction attributes generalizing fuel seen with
  | nil => cases fuel <;> rfl
  | cons a later ih =>
    cases fuel with
    | zero => simp at enough
    | succ fuel =>
      have shape := keys.shape a List.mem_cons_self
      have new := keys.new a List.mem_cons_self
      obtain ⟨start, first⟩ := readAttributeOf total fuel shape new
        (later.flatMap fun a => ' ' :: a.content.toList)
      rw [List.flatMap_cons, first, ih (keys.tail start) (Nat.le_of_succ_le_succ enough)]
      rfl

end EdmxPruning.Markup
