import EdmxPruning.Proofs.Document.Blanks
import EdmxPruning.Proofs.Document.Listing

/-! Where two blank texts can stand side by side. The scan reads a text as far as it goes, so only a
token that leaves no node behind can part two of them: a declaration inside an element. Removals bring
no two blanks together, for they take along the one before. -/
namespace EdmxPruning
open Markup

namespace Markup

section Scanned

variable {cs rest : List Char} {t : Token}

theorem noTextHead (ends : EndsText cs) (head : scanHead cs = .token t rest) :
    t.isText = false := by
  cases cs with
  | nil => cases head
  | cons c more =>
    have other : textChar c = false := ends c rfl
    unfold scanHead at head
    split at head
    · cases head
    · rcases scanBracketParts head with ⟨_, bang⟩ | ⟨_, told⟩ | ⟨_, closing⟩ | ⟨_, tag⟩
      · obtain ⟨_, cdata | comment | doctype⟩ := scanBangParts bang
        · obtain ⟨_, same, _⟩ := cdataAgain cdata
          rw [same]; rfl
        · obtain ⟨_, same, _⟩ := commentAgain comment
          rw [same]; rfl
        · obtain ⟨_, same, _⟩ := doctypeAgain doctype
          rw [same]; rfl
      · obtain ⟨content, same, _⟩ := instructionAgain told
        rcases instructionParts content with shape | shape <;> rw [same, shape] <;> rfl
      · rw [closing]; rfl
      · obtain ⟨content, _, same⟩ := closedToken tag
        rcases startOrEmptyTag content with shape | ⟨_, shape⟩ <;> rw [same, shape] <;> rfl
    · obtain ⟨_, same, _⟩ := referenceAgain head
      rw [same]; rfl
    · simp_all [textChar]

theorem textEnds (head : scanHead cs = .token t rest) (text : t.isText = true) :
    EndsText rest := by
  cases cs with
  | nil => cases head
  | cons c more =>
    cases own : textChar c with
    | false =>
      have ends : EndsText (c :: more) := fun x first => Option.some.inj first ▸ own
      rw [noTextHead ends head] at text
      cases text
    | true =>
      rw [scanHeadText own] at head
      cases head
      intro x first
      simpa [Option.mem_def.mp first] using
        List.head?_dropWhile_not textChar (c :: more)

theorem runApart {fuel : Nat} {read : List Token} (apart : read.reverse.IsChain Apart)
    (ends : ∀ t ∈ read.head?, t.isText = true → EndsText cs) :
    (run fuel read cs).tokens.IsChain Apart := by
  induction fuel generalizing read cs with
  | zero => exact apart
  | succ fuel ih =>
    unfold run
    cases head : scanHead cs with
    | done => exact apart
    | fault error => exact apart
    | token t rest =>
      refine ih ?_ fun u first text => ?_
      · rw [List.reverse_cons]
        refine apart.append (.singleton t) fun last member u same text => ?_
        rw [List.getLast?_reverse] at member
        cases same
        exact noTextHead (ends last member text) head
      · cases first
        exact textEnds head text

end Scanned

theorem scanApart (text : String) : (scan text).tokens.IsChain Apart :=
  runApart .nil (by simp)

def DeclaredOutside (tokens : List Token) : Prop :=
  ∀ before content after, tokens = before ++ .declaration content :: after → openNames before = []

def Token.isDeclaration : Token → Bool
  | .declaration _ => true
  | _ => false

theorem declaredOutsideIff {tokens : List Token} : DeclaredOutside tokens ↔
    ∀ place < tokens.length, tokens[place]?.any Token.isDeclaration = true →
      openNames (tokens.take place) = [] := by
  constructor
  · intro outside place below declared
    rw [List.getElem?_eq_getElem below, Option.any_some] at declared
    cases own : tokens[place] with
    | declaration content =>
      refine outside _ content (tokens.drop (place + 1)) ?_
      rw [← own, ← List.drop_eq_getElem_cons below, List.take_append_drop]
    | _ => rw [own] at declared; cases declared
  · intro given before content after split
    subst split
    have here := given before.length (by simp) (by simp [Token.isDeclaration])
    rwa [List.take_left] at here

instance (tokens : List Token) : Decidable (DeclaredOutside tokens) :=
  decidable_of_iff _ declaredOutsideIff.symm

def Mark.Apart (first second : Mark) : Prop := ¬ (first.isBlank = true ∧ second.isBlank = true)

theorem apartOfFilled {first : Mark} (filled : first.isBlank = false) (second : Mark) :
    first.Apart second := by
  simp [Mark.Apart, filled]

theorem blankText {l : Leaf} (blank : l.isBlankText = true) : l.isText = true := by
  cases l <;> first | rfl | cases blank

theorem countedFilled {t : Token} (other : t.isText = false) {outer : List String} :
    ∀ m ∈ t.counted outer, m.isBlank = false := by
  intro m member
  obtain ⟨listed, _⟩ := List.mem_filter.mp member
  cases read : t.marks with
  | error error => simp [read, Except.toOption] at listed
  | ok marks =>
    rw [read] at listed
    cases m with
    | leaf l =>
      have text : l.isText = false := by rwa [marksLeaf read listed] at other
      exact Bool.eq_false_iff.mpr fun blank => by
        rw [blankText blank] at text
        cases text
    | _ => rfl

theorem countedSome {t : Token} (reads : ∀ error, t.tag? ≠ some (.error error))
    (other : t.isText = false) (shows : ∀ content, t ≠ .declaration content) (outer : List String) :
    t.counted outer ≠ [] := by
  cases own : t.tag? with
  | some result =>
    cases result with
    | error error => exact absurd own (reads error)
    | ok tag =>
      obtain ⟨later, marks⟩ := marksOpening own
      simp [Token.counted, marks, Except.toOption, Mark.isBlank]
  | none =>
    cases t with
    | startTag | emptyTag => cases own
    | endTag name => simp [Token.counted, Token.marks, Except.toOption, Mark.isBlank]
    | leaf l =>
      have filled : l.isBlankText = false := Bool.eq_false_iff.mpr fun blank =>
        Bool.false_ne_true (other.symm.trans (blankText blank))
      simp [countedLeaf, filled]
    | declaration content => exact absurd rfl (shows content)

theorem filledApart {marks more : List Mark} (fine : ∀ m ∈ marks, m.isBlank = false)
    (later : more.IsChain Mark.Apart) : (marks ++ more).IsChain Mark.Apart := by
  induction marks with
  | nil => exact later
  | cons m rest ih =>
    exact (ih fun x member => fine x (List.mem_cons_of_mem _ member)).cons fun x _ =>
      apartOfFilled (fine m List.mem_cons_self) x

theorem countedFirst {outer : List String} {t : Token} {rest : List Token}
    (reads : ∀ error, t.tag? ≠ some (.error error)) (other : t.isText = false)
    (shows : ∀ content, t ≠ .declaration content) :
    ∀ m ∈ (countedMarks outer (t :: rest)).head?, m.isBlank = false := by
  intro m first
  rw [countedMarks, List.head?_append_of_ne_nil _ (countedSome reads other shows outer)] at first
  exact countedFilled other m (List.mem_of_mem_head? first)

/- The marks of tokens that are apart are apart, unless a declaration is read inside an element. -/
theorem countedApart {outer : List String} {tokens : List Token} (apart : tokens.IsChain Apart)
    (reads : ∀ t ∈ tokens, ∀ error, t.tag? ≠ some (.error error))
    (outside : ∀ before content after, tokens = before ++ .declaration content :: after →
      before.foldl Token.opened outer = []) :
    (countedMarks outer tokens).IsChain Mark.Apart := by
  induction tokens generalizing outer with
  | nil => exact .nil
  | cons t rest ih =>
    obtain ⟨next, chain⟩ := List.isChain_cons.mp apart
    have later : (countedMarks (t.opened outer) rest).IsChain Mark.Apart := by
      refine ih chain (fun u member => reads u (List.mem_cons_of_mem _ member)) ?_
      intro before content after split
      exact outside (t :: before) content after (congrArg (t :: ·) split)
    rw [countedMarks]
    cases text : t.isText with
    | false => exact filledApart (countedFilled text) later
    | true =>
      obtain ⟨l, same⟩ : ∃ l, t = .leaf l := by
        cases t <;> first | exact ⟨_, rfl⟩ | cases text
      subst same
      rw [countedLeaf]
      split
      · exact later
      · -- inside an element, where what comes next is neither a text nor a declaration
        rename_i counts
        refine later.cons fun m first both => ?_
        cases rest with
        | nil => cases first
        | cons u more =>
          have filled := countedFirst (reads u (by simp)) (next u rfl text) ?_ m first
          · exact Bool.false_ne_true (filled.symm.trans both.2)
          · intro content same
            have top : outer = [] := outside [.leaf l] content more (by rw [same]; rfl)
            have blank : l.isBlankText = true := both.1
            simp [top, blank] at counts

end Markup

namespace Document

def BlanksApartAnywhere (d : Document) : Prop :=
  ∀ id < d.nodes.size, (d.children id).IsChain fun a b =>
    ¬ (d.isBlankText a = true ∧ d.isBlankText b = true)

section Read

variable {d : Document} (uncut : ∀ id : Nat, d.isCut id = false) {f : Forest} {enclosing : List Tag}
  {parent : Option NodeId} {first : Nat} (stands : f.Stands d.nodes enclosing parent first)
include stands

theorem firstMark {id : NodeId} (root : id ∈ (f.roots first).head?) :
    ∃ m ∈ f.marks.head?, m.isBlank = d.isBlankText id := by
  cases f with
  | nil => cases root
  | leaf l rest =>
    cases root
    exact ⟨.leaf l, rfl, by simp [isBlankText, content?, stands.1, Mark.isBlank]⟩
  | element tag children rest =>
    cases root
    exact ⟨.opening tag, rfl, by simp [isBlankText, content?, stands.1, Mark.isBlank]⟩

include uncut

theorem standsApart (apart : f.marks.IsChain Mark.Apart) :
    ((f.roots first).IsChain fun a b => ¬ (d.isBlankText a = true ∧ d.isBlankText b = true)) ∧
    ∀ id : Nat, first ≤ id → id < f.after first → (d.children id).IsChain fun a b =>
      ¬ (d.isBlankText a = true ∧ d.isBlankText b = true) := by
  induction f generalizing enclosing parent first with
  | nil => exact ⟨.nil, fun id low high => absurd high (Nat.not_lt.mpr low)⟩
  | leaf l rest ih =>
    obtain ⟨next, chain⟩ := List.isChain_cons.mp apart
    obtain ⟨siblings, below⟩ := ih stands.2 chain
    refine ⟨siblings.cons fun id root both => ?_, fun id low high => ?_⟩
    · obtain ⟨m, shown, same⟩ := firstMark stands.2 root
      have own : d.isBlankText first = l.isBlankText := by
        simp [isBlankText, content?, stands.1]
      exact next m shown ⟨own.symm.trans both.1, same.trans both.2⟩
    · by_cases here : id = first
      · have none : d.children id = [] := by simp [children, here, stands.1]
        rw [none]
        exact .nil
      · exact below id (by omega) high
  | element tag kids rest ihc ihr =>
    obtain ⟨own, inner, later⟩ := stands
    obtain ⟨front, back, _⟩ := List.isChain_append.mp apart
    obtain ⟨siblings, below⟩ := ihc inner (List.isChain_cons.mp front).2
    obtain ⟨others, beyond⟩ := ihr later (List.isChain_cons.mp back).2
    refine ⟨others.cons fun id _ both => ?_, fun id low high => ?_⟩
    · simp [isBlankText, content?, own] at both
    · by_cases here : id = first
      · have kidsHere : d.children id = kids.roots (first + 1) := by
          simp [children, here, own, uncut]
        rw [kidsHere]
        exact siblings
      · by_cases inside : id < kids.after (first + 1)
        · exact below id (by omega) inside
        · exact beyond id (by omega) high

end Read

theorem parsedApart {text : String} {d : Document} (read : parse text = .ok d)
    (outside : DeclaredOutside (scan text).tokens) : d.BlanksApartAnywhere := by
  have good := parsedWellFormed read
  obtain ⟨f, nested, _, marks⟩ := readsWellFormed good
  obtain ⟨_, nestedToo, placed⟩ := parseParts read
  cases nested.symm.trans nestedToo
  obtain ⟨stands, size⟩ := ofForestStands placed
  have apart : f.marks.IsChain Mark.Apart := by
    rw [marks]
    exact countedApart (scanApart text) good.attributes outside
  intro id below
  exact (standsApart (ofForestUncut placed) stands apart).2 id (Nat.zero_le id) (size ▸ below)

theorem chainOfBefore {r : NodeId → NodeId → Prop} {ids : List NodeId} (nodup : ids.Nodup)
    (all : ∀ x w, before? x ids = some w → r w x) : ids.IsChain r := by
  induction ids with
  | nil => exact .nil
  | cons first rest ih =>
    have restNodup := (List.nodup_cons.mp nodup).2
    refine (ih restNodup fun x w found => all x w (beforeCons restNodup found)).cons fun x next => ?_
    cases rest with
    | nil => cases next
    | cons second later =>
      cases next
      exact all _ _ (by rw [before?, if_pos rfl])

/- What comes to stand before a node when others go is no blank, or it would have gone with them. -/
theorem BlanksApartAnywhere.remove {d d' : Document} (arena : d.Arena)
    (apart : d.BlanksApartAnywhere) {id : NodeId} (ok : d.remove? id = some d') :
    d'.BlanksApartAnywhere := by
  have lose := removeLoses arena ok
  have arena' := lose.arena arena
  obtain ⟨parent, above, cuts⟩ := removeCuts arena ok
  intro p below
  have chain := apart p (lose.nodes ▸ below)
  refine chainOfBefore (arena'.childrenNodup p) fun x w found both => ?_
  rw [lose.isBlankTextSame] at both
  have uncut := childUncut arena' (beforeMem found)
  rw [lose.childrenLeft] at found
  obtain ⟨next, after, same | lost⟩ := beforeUnfiltered (arena.childrenNodup p) found
  · exact beforeChain chain after (same.symm ▸ both)
  · have listed := beforeOf after
    rcases (cuts next).mp (by simpa using lost) with old | own | indent
    · rw [childUncut arena listed] at old
      cases old
    · subst own
      cases above.symm.trans (arena.memChildren.mp listed)
      rw [(cuts w).mpr (.inr (.inr (Option.filter_eq_some_iff.mpr ⟨after, both.1⟩)))] at uncut
      cases uncut
    · exact beforeChain chain after ⟨both.1, (indentParts indent).2⟩

end Document
end EdmxPruning
