import EdmxPruning.Metadata.ShortName

/-! Sets of short names, kept as ascending lists. Two sets with the same members are equal, and
every listing of a set is in code point order. -/
namespace EdmxPruning

structure NameSet where
  names : List ShortName
  ascending : names.Pairwise (· < ·)
  deriving DecidableEq, Repr

namespace NameSet

def place (a : ShortName) : List ShortName → List ShortName
  | [] => [a]
  | b :: rest => if a < b then a :: b :: rest else if a = b then b :: rest else b :: place a rest

theorem memPlace {a c : ShortName} {names : List ShortName} :
    c ∈ place a names ↔ c = a ∨ c ∈ names := by
  induction names with
  | nil => simp [place]
  | cons b rest ih => grind [place]

theorem placeAscending {a : ShortName} {names : List ShortName} (h : names.Pairwise (· < ·)) :
    (place a names).Pairwise (· < ·) := by
  induction names with
  | nil => simp [place]
  | cons b rest ih =>
    have ⟨first, later⟩ := List.pairwise_cons.1 h
    unfold place
    split
    · rename_i less
      exact List.pairwise_cons.2 ⟨fun c hc => (List.mem_cons.1 hc).elim
        (fun same => same ▸ less) fun inRest => ShortName.ltTrans less (first c inRest), h⟩
    · split
      · exact h
      · rename_i notLess different
        have greater : b < a := by
          rcases ShortName.ltTrichotomy a b with less | same | greater
          · exact absurd less notLess
          · exact absurd same different
          · exact greater
        exact List.pairwise_cons.2 ⟨fun c hc => (memPlace.1 hc).elim (fun same => same ▸ greater)
          (first c), ih later⟩

def empty : NameSet := ⟨[], .nil⟩

instance : EmptyCollection NameSet := ⟨empty⟩
instance : Inhabited NameSet := ⟨empty⟩
instance : Membership ShortName NameSet := ⟨fun s a => a ∈ s.names⟩
instance (a : ShortName) (s : NameSet) : Decidable (a ∈ s) :=
  inferInstanceAs (Decidable (a ∈ s.names))

def insert (s : NameSet) (a : ShortName) : NameSet := ⟨place a s.names, placeAscending s.ascending⟩

def insertAll (s : NameSet) (names : List ShortName) : NameSet := names.foldl insert s

def ofList (names : List ShortName) : NameSet := (∅ : NameSet).insertAll names

def size (s : NameSet) : Nat := s.names.length

def isEmpty (s : NameSet) : Bool := s.names.isEmpty

def filter (s : NameSet) (keep : ShortName → Bool) : NameSet :=
  ⟨s.names.filter keep, s.ascending.filter keep⟩

def diff (s t : NameSet) : NameSet := s.filter (· ∉ t)

theorem memInsert {s : NameSet} {a c : ShortName} : c ∈ s.insert a ↔ c = a ∨ c ∈ s := memPlace

theorem memInsertAll {s : NameSet} {names : List ShortName} {c : ShortName} :
    c ∈ s.insertAll names ↔ c ∈ s ∨ c ∈ names := by
  unfold insertAll
  induction names generalizing s with
  | nil => simp
  | cons a rest ih => rw [List.foldl_cons, ih, memInsert, List.mem_cons]; grind

theorem memOfList {names : List ShortName} {c : ShortName} : c ∈ ofList names ↔ c ∈ names :=
  memInsertAll.trans (or_iff_right List.not_mem_nil)

theorem memDiff {s t : NameSet} {c : ShortName} : c ∈ s.diff t ↔ c ∈ s ∧ c ∉ t :=
  List.mem_filter.trans (and_congr_right fun _ => decide_eq_true_iff)

end NameSet
end EdmxPruning
