import EdmxPruning.Markup.Scan

/-! Reading up to a closing bracket. What is read depends on nothing that comes after the bracket,
so the text before it can be put before anything else and is read there in the same way. -/
namespace EdmxPruning.Markup

section UpToClose

variable {σ : Type} {step : σ → Char → Option σ} {tail : Nat}

theorem upToCloseParts {state : σ} {read cs rest : List Char} {content : String}
    (h : upToClose step tail state read cs = some (content, rest)) :
    ∃ body c final, cs = body ++ c :: rest ∧ body.foldlM step state = some final ∧
      step final c = none ∧ content.toList = ((body.reverse ++ read).drop tail).reverse := by
  induction cs generalizing state read with
  | nil => cases h
  | cons c more ih =>
    unfold upToClose at h
    cases next : step state c with
    | none =>
      simp only [next, Option.some.injEq, Prod.mk.injEq] at h
      obtain ⟨same, left⟩ := h
      exact ⟨[], c, state, by simp [left], rfl, next, by simp [← same]⟩
    | some later =>
      simp only [next] at h
      obtain ⟨body, last, final, split, passes, stops, shown⟩ := ih h
      refine ⟨c :: body, last, final, by simp [split], ?_, stops, by simpa using shown⟩
      simpa [List.foldlM_cons, next] using passes

theorem upToCloseOf {state final : σ} {read body rest : List Char} {c : Char}
    (passes : body.foldlM step state = some final) (stops : step final c = none) :
    upToClose step tail state read (body ++ c :: rest) =
      some (.ofList ((body.reverse ++ read).drop tail).reverse, rest) := by
  induction body generalizing state read with
  | nil =>
    cases passes
    simp [upToClose, stops]
  | cons first more ih =>
    rw [List.foldlM_cons] at passes
    cases next : step state first with
    | none => simp [next] at passes
    | some later =>
      simp only [next, Option.bind_eq_bind, Option.bind_some] at passes
      rw [List.cons_append, upToClose, next]
      simpa using ih passes

theorem upToBracketParts {state : σ} {cs rest : List Char} {content : String}
    (h : upToClose step 0 state [] cs = some (content, rest)) :
    ∃ c final, cs = content.toList ++ c :: rest ∧ content.toList.foldlM step state = some final ∧
      step final c = none := by
  obtain ⟨body, c, final, split, passes, stops, shown⟩ := upToCloseParts h
  have same : content.toList = body := by simpa using shown
  exact ⟨c, final, same ▸ split, same ▸ passes, stops⟩

theorem upToBracketOf {state final : σ} {body : List Char} {c : Char}
    (passes : body.foldlM step state = some final) (stops : step final c = none)
    (rest : List Char) :
    upToClose step 0 state [] (body ++ c :: rest) = some (.ofList body, rest) := by
  rw [upToCloseOf passes stops]
  simp

end UpToClose

theorem afterMarksStops {mark c : Char} {need run : Nat} (h : afterMarks mark need run c = none) :
    c = '>' ∧ need ≤ run := by
  unfold afterMarks at h
  split at h
  · assumption
  · cases h

/- The state counts the marks that the text read so far ends with. -/
theorem afterMarksCounts {mark : Char} {need start final : Nat} {before body : List Char}
    (ends : ∃ front, before = front ++ List.replicate start mark)
    (passes : body.foldlM (afterMarks mark need) start = some final) :
    ∃ front, before ++ body = front ++ List.replicate final mark := by
  induction body generalizing before start with
  | nil =>
    cases passes
    simpa using ends
  | cons c more ih =>
    obtain ⟨front, shape⟩ := ends
    rw [List.foldlM_cons] at passes
    unfold afterMarks at passes
    split at passes
    · simp at passes
    · simp only [Option.bind_eq_bind, Option.bind_some] at passes
      rw [List.append_cons]
      apply ih ?_ passes
      split
      · rename_i same
        subst same
        exact ⟨front, by rw [shape, List.replicate_succ', List.append_assoc]⟩
      · exact ⟨before ++ [c], by simp⟩

theorem closedContent {mark : Char} {need final : Nat} {body : List Char}
    (passes : body.foldlM (afterMarks mark need) 0 = some final) (enough : need ≤ final) :
    (body.reverse.drop need).reverse ++ List.replicate need mark = body := by
  have start : ∃ front, [] = front ++ List.replicate 0 mark := ⟨[], rfl⟩
  obtain ⟨front, shape⟩ := afterMarksCounts start passes
  have split : body = front ++ List.replicate (final - need) mark ++ List.replicate need mark := by
    rw [List.append_assoc, List.replicate_append_replicate, Nat.sub_add_cancel enough]
    exact shape
  rw [split]
  simp [List.drop_append]

theorem closesAgain {mark : Char} {need : Nat} {cs rest : List Char} {content : String}
    (h : upToClose (afterMarks mark need) need 0 [] cs = some (content, rest)) :
    (∃ after, cs = content.toList ++ List.replicate need mark ++ '>' :: after) ∧
    ∀ more, upToClose (afterMarks mark need) need 0 []
      (content.toList ++ List.replicate need mark ++ '>' :: more) = some (content, more) := by
  obtain ⟨body, c, final, split, passes, stops, shown⟩ := upToCloseParts h
  obtain ⟨bracket, enough⟩ := afterMarksStops stops
  subst bracket
  rw [List.append_nil] at shown
  have whole := closedContent passes enough
  rw [shown, whole]
  refine ⟨⟨rest, split⟩, ?_⟩
  intro more
  rw [upToCloseOf passes stops, List.append_nil, ← shown, String.ofList_toList]

theorem outsideQuotesStops {quote : Option Char} {c : Char} (h : outsideQuotes quote c = none) :
    quote = none ∧ c = '>' := by
  cases quote with
  | none =>
    simp only [outsideQuotes] at h
    split at h
    · exact ⟨rfl, by assumption⟩
    · cases h
  | some q => cases h

theorem balancedStops {depth : Nat} {c : Char} (h : balanced depth c = none) :
    depth = 0 ∧ c = '>' := by
  unfold balanced at h
  split at h
  · cases h
  · split at h
    · rename_i bracket
      split at h
      · exact ⟨by assumption, bracket⟩
      · cases h
    · cases h

end EdmxPruning.Markup
