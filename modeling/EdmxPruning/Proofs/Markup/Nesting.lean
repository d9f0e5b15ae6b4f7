import EdmxPruning.Markup.Nesting

/-! What reading keeps: a forest has one element at the top level at most, and every tag and leaf
in it comes from one of the marks that were read. -/
namespace EdmxPruning

theorem bindFails {ε α β : Type} {x : Except ε α} {f : α → Except ε β} {e : ε}
    (failed : x.bind f = .error e) : x = .error e ∨ ∃ a, x = .ok a ∧ f a = .error e := by
  cases x with
  | error own => cases failed; exact .inl rfl
  | ok a => exact .inr ⟨a, rfl, failed⟩

theorem bindDone {ε α β : Type} {x : Except ε α} {f : α → Except ε β} {b : β}
    (done : x.bind f = .ok b) : ∃ a, x = .ok a ∧ f a = .ok b := by
  cases x with
  | error own => cases done
  | ok a => exact ⟨a, rfl, done⟩

end EdmxPruning

namespace EdmxPruning.Markup

/- A property of the state that every step keeps holds after all steps. -/
theorem foldKeeps {σ α ε : Type} {step : σ → α → Except ε σ} {kept : σ → Prop} {items : List α}
    (keeps : ∀ s a s', a ∈ items → kept s → step s a = .ok s' → kept s') {start final : σ}
    (ok : items.foldlM step start = .ok final) (h : kept start) : kept final := by
  induction items generalizing start with
  | nil => cases ok; exact h
  | cons a rest ih =>
    rw [List.foldlM_cons] at ok
    cases first : step start a with
    | error e => rw [first] at ok; cases ok
    | ok next =>
      rw [first] at ok
      exact ih (fun s b s' hb => keeps s b s' (List.mem_cons_of_mem _ hb)) ok
        (keeps start a next List.mem_cons_self h first)

namespace Forest

def topElements : Forest → Nat
  | .nil => 0
  | .leaf _ rest => rest.topElements
  | .element _ _ rest => rest.topElements + 1

theorem topElementsReverseOnto (done f : Forest) :
    (reverseOnto done f).topElements = done.topElements + f.topElements := by
  induction f generalizing done with
  | nil => rfl
  | leaf l rest ih => rw [reverseOnto, ih]; rfl
  | element tag children rest _ ih => rw [reverseOnto, ih]; simp only [topElements]; omega

theorem topElementsReverse (f : Forest) : f.reverse.topElements = f.topElements :=
  (topElementsReverseOnto .nil f).trans (Nat.zero_add _)

theorem noElement {f : Forest} (h : f.hasElement = false) : f.topElements = 0 := by
  induction f with
  | nil => rfl
  | leaf l rest ih => exact ih h
  | element => cases h

def Each (tags : Tag → Prop) (leaves : Leaf → Prop) : Forest → Prop
  | .nil => True
  | .leaf l rest => leaves l ∧ rest.Each tags leaves
  | .element tag children rest =>
      tags tag ∧ children.Each tags leaves ∧ rest.Each tags leaves

theorem eachReverseOnto {tags : Tag → Prop} {leaves : Leaf → Prop} {done f : Forest}
    (before : done.Each tags leaves) (h : f.Each tags leaves) :
    (reverseOnto done f).Each tags leaves := by
  induction f generalizing done with
  | nil => exact before
  | leaf l rest ih => exact ih ⟨h.1, before⟩ h.2
  | element tag children rest _ ih => exact ih ⟨h.1, h.2.1, before⟩ h.2.2

end Forest

namespace Nesting

def topElements (earlier : Forest) : List Frame → Nat
  | [] => earlier.topElements
  | frame :: outer => topElements (.element frame.tag .nil frame.earlier) outer

theorem markTopElements {n n' : Nesting} {m : Mark} (h : topElements n.earlier n.frames ≤ 1)
    (ok : n.mark m = .ok n') : topElements n'.earlier n'.frames ≤ 1 := by
  obtain ⟨earlier, frames⟩ := n
  cases m with
  | opening tag =>
    simp only [mark] at ok
    split at ok
    · cases ok
    · rename_i free
      cases ok
      cases frames with
      | nil =>
        have none : earlier.hasElement = false := by simpa using free
        simp [topElements, Forest.topElements, Forest.noElement none]
      | cons frame outer => exact h
  | closing name =>
    cases frames with
    | nil => cases ok
    | cons frame outer =>
      simp only [mark] at ok
      split at ok
      · cases ok
        cases outer <;> exact h
      · cases ok
  | leaf l =>
    simp only [mark] at ok
    split at ok
    · cases ok; exact h
    · cases ok
      cases frames <;> exact h

def Each (tags : Tag → Prop) (leaves : Leaf → Prop) (n : Nesting) : Prop :=
  n.earlier.Each tags leaves ∧ ∀ frame ∈ n.frames, tags frame.tag ∧ frame.earlier.Each tags leaves

theorem markEach {tags : Tag → Prop} {leaves : Leaf → Prop} {n n' : Nesting} {m : Mark}
    (opened : ∀ tag, m = .opening tag → tags tag) (passed : ∀ l, m = .leaf l → leaves l)
    (h : n.Each tags leaves) (ok : n.mark m = .ok n') : n'.Each tags leaves := by
  obtain ⟨earlier, frames⟩ := n
  obtain ⟨siblings, open_⟩ := h
  cases m with
  | opening tag =>
    simp only [mark] at ok
    split at ok
    · cases ok
    · cases ok
      refine ⟨trivial, fun frame hf => ?_⟩
      rcases List.mem_cons.mp hf with same | outer
      · subst same; exact ⟨opened tag rfl, siblings⟩
      · exact open_ frame outer
  | closing name =>
    cases frames with
    | nil => cases ok
    | cons frame outer =>
      simp only [mark] at ok
      split at ok
      · cases ok
        have own := open_ frame List.mem_cons_self
        exact ⟨⟨own.1, Forest.eachReverseOnto trivial siblings, own.2⟩,
          fun other ho => open_ other (List.mem_cons_of_mem _ ho)⟩
      · cases ok
  | leaf l =>
    simp only [mark] at ok
    split at ok
    · cases ok; exact ⟨siblings, open_⟩
    · cases ok; exact ⟨⟨passed l rfl, siblings⟩, open_⟩

theorem tokenMarks {n n' : Nesting} {t : Token} (ok : n.token t = .ok n') :
    ∃ marks, t.marks = .ok marks ∧ marks.foldlM mark n = .ok n' := by
  unfold token at ok
  cases read : t.marks with
  | error e => rw [read] at ok; cases ok
  | ok marks => rw [read] at ok; exact ⟨marks, rfl, ok⟩

end Nesting

theorem scanNested {s : Scan} {f : Forest} (ok : Forest.ofScan s = .ok f) :
    s.fault = none ∧ ∃ earlier, s.tokens.foldlM Nesting.token .start = .ok ⟨earlier, []⟩ ∧
      f = earlier.reverse := by
  unfold Forest.ofScan at ok
  cases folded : s.tokens.foldlM Nesting.token .start with
  | error e => rw [folded] at ok; cases ok
  | ok n =>
    rw [folded] at ok
    obtain ⟨earlier, frames⟩ := n
    cases fault : s.fault with
    | some e => simp [bind, Except.bind, fault] at ok
    | none =>
      cases frames with
      | nil =>
        simp only [bind, Except.bind, fault, Nesting.finish, Except.ok.injEq] at ok
        exact ⟨rfl, earlier, rfl, ok.symm⟩
      | cons frame outer => simp [bind, Except.bind, fault, Nesting.finish] at ok

theorem readTopElements {s : Scan} {f : Forest} (ok : Forest.ofScan s = .ok f) :
    f.topElements ≤ 1 := by
  obtain ⟨_, earlier, folded, same⟩ := scanNested ok
  rw [same, Forest.topElementsReverse]
  have final : Nesting.topElements earlier [] ≤ 1 := by
    let kept (n : Nesting) : Prop := Nesting.topElements n.earlier n.frames ≤ 1
    have read : ∀ n t n', t ∈ s.tokens → kept n → n.token t = .ok n' → kept n' := by
      intro n t n' _ h step
      obtain ⟨marks, _, run⟩ := Nesting.tokenMarks step
      exact foldKeeps (fun n m n' _ h ok => Nesting.markTopElements h ok) run h
    exact foldKeeps read folded (Nat.zero_le 1)
  exact final

def Token.Opens (t : Token) (tag : Tag) : Prop :=
  ∃ content, (t = .startTag content ∨ t = .emptyTag content) ∧ Tag.ofContent content = .ok tag

theorem marksOpen {t : Token} {marks : List Mark} (ok : t.marks = .ok marks) {tag : Tag}
    (h : .opening tag ∈ marks) : t.Opens tag := by
  cases t with
  | startTag content =>
    simp only [Token.marks, bind, Except.bind] at ok
    split at ok
    · cases ok
    · rename_i own read
      cases ok
      cases List.mem_singleton.mp h
      exact ⟨content, .inl rfl, read⟩
  | emptyTag content =>
    simp only [Token.marks, bind, Except.bind] at ok
    split at ok
    · cases ok
    · rename_i own read
      cases ok
      have same : tag = own := by simpa using h
      subst same
      exact ⟨content, .inr rfl, read⟩
  | endTag name => cases ok; simp at h
  | leaf l => cases ok; simp at h
  | declaration content => cases ok; simp at h

theorem marksLeaf {t : Token} {marks : List Mark} (ok : t.marks = .ok marks) {l : Leaf}
    (h : .leaf l ∈ marks) : t = .leaf l := by
  cases t with
  | startTag content =>
    simp only [Token.marks, bind, Except.bind] at ok
    split at ok
    · cases ok
    · cases ok; simp at h
  | emptyTag content =>
    simp only [Token.marks, bind, Except.bind] at ok
    split at ok
    · cases ok
    · cases ok; simp at h
  | endTag name => cases ok; simp at h
  | leaf other =>
    cases ok
    have same : l = other := by simpa using h
    rw [same]
  | declaration content => cases ok; simp at h

theorem readEach {tags : Tag → Prop} {leaves : Leaf → Prop} {s : Scan} {f : Forest}
    (ok : Forest.ofScan s = .ok f) (opened : ∀ t ∈ s.tokens, ∀ tag, t.Opens tag → tags tag)
    (passed : ∀ l, .leaf l ∈ s.tokens → leaves l) : f.Each tags leaves := by
  obtain ⟨_, earlier, folded, same⟩ := scanNested ok
  have final : Nesting.Each tags leaves ⟨earlier, []⟩ := by
    refine foldKeeps (fun n t n' member h step => ?_) folded ⟨trivial, by simp [Nesting.start]⟩
    obtain ⟨marks, read, run⟩ := Nesting.tokenMarks step
    refine foldKeeps (fun n m n' inside h step => ?_) run h
    refine Nesting.markEach (fun tag opening => ?_) (fun l leaf => ?_) h step
    · exact opened t member tag (marksOpen read (opening ▸ inside))
    · exact passed l (marksLeaf read (leaf ▸ inside) ▸ member)
  rw [same]
  exact Forest.eachReverseOnto trivial final.1

end EdmxPruning.Markup
