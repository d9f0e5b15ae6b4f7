import Mathlib.Data.List.Sort
import EdmxPruning.Metadata.NameSet

/-! Sets of names are determined by their members, and their sizes add up. -/
namespace EdmxPruning.NameSet

instance : Std.Irrefl (fun a b : ShortName => a < b) := ⟨ShortName.ltIrrefl⟩
instance : Std.Asymm (fun a b : ShortName => a < b) :=
  ⟨fun a _ less more => ShortName.ltIrrefl a (ShortName.ltTrans less more)⟩

theorem memNames {s : NameSet} {a : ShortName} : a ∈ s.names ↔ a ∈ s := Iff.rfl

theorem memFilter {s : NameSet} {keep : ShortName → Bool} {a : ShortName} :
    a ∈ s.filter keep ↔ a ∈ s ∧ keep a := List.mem_filter

theorem memExt {s t : NameSet} (same : ∀ a, a ∈ s ↔ a ∈ t) : s = t := by
  have names : s.names = t.names := s.ascending.eq_of_mem_iff t.ascending fun a => same a
  cases s; cases t; cases names; rfl

theorem nodup (s : NameSet) : s.names.Nodup := s.ascending.nodup

theorem filterNames {s t : NameSet} (inside : ∀ a ∈ t, a ∈ s) : s.filter (· ∈ t) = t :=
  memExt fun a => by
    rw [memFilter, decide_eq_true_eq]
    exact ⟨And.right, fun member => ⟨inside a member, member⟩⟩

theorem sizeOfPart {s t : NameSet} (inside : ∀ a ∈ t, a ∈ s) :
    s.size = t.size + (s.diff t).size := by
  have part : (s.names.filter (· ∈ t)).length = t.size :=
    congrArg NameSet.size (filterNames inside)
  have rest : (s.names.filter (fun a => !decide (a ∈ t))).length = (s.diff t).size := by
    simp only [diff, size, filter, decide_not]
  have both := List.length_eq_length_filter_add (l := s.names) (fun a => decide (a ∈ t))
  rw [← part, ← rest]
  exact both

theorem insertKnown {s : NameSet} {a : ShortName} (known : a ∈ s) : s.insert a = s :=
  memExt fun _ => memInsert.trans (or_iff_right_of_imp fun same => same ▸ known)

theorem sizeInsert {s : NameSet} {a : ShortName} (new : a ∉ s) : (s.insert a).size = s.size + 1 := by
  have distinct : (a :: s.names).Nodup := List.nodup_cons.mpr ⟨new, s.nodup⟩
  have perm : (s.insert a).names.Perm (a :: s.names) :=
    (List.perm_ext_iff_of_nodup (nodup _) distinct).mpr fun _ => memInsert.trans List.mem_cons.symm
  exact perm.length_eq

end EdmxPruning.NameSet
