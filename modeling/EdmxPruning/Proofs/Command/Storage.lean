import EdmxPruning.Command.Storage
import Mathlib.Logic.Function.Basic

/-! What is known of a storage. Which paths lead to one file is its own matter; a write that fails leaves
the files as they were, and one that succeeds changes what is read there and nowhere else. -/
namespace EdmxPruning

structure Storage.Lawful {σ : Type} (storage : Storage σ) (sameFile : σ → String → String → Prop) :
    Prop where
  itself : ∀ files path, sameFile files path path
  kept : ∀ {files path text fault after},
    storage.write files path text = (.error fault, after) → after = files
  holds : ∀ {files path text after other}, storage.write files path text = (.ok (), after) →
    sameFile files path other → storage.read after other = .ok text
  others : ∀ {files path text after other}, storage.write files path text = (.ok (), after) →
    ¬ sameFile files path other →
    ∀ found, storage.read after other = .ok found ↔ storage.read files other = .ok found

structure Storage.Written {σ : Type} (storage : Storage σ) (sameFile : σ → String → String → Prop)
    (before after : σ) (path text : String) : Prop where
  write : storage.write before path text = (.ok (), after)
  holds : storage.read after path = .ok text
  same : ∀ other, sameFile before path other → storage.read after other = .ok text
  others : ∀ other, ¬ sameFile before path other →
    ∀ found, storage.read after other = .ok found ↔ storage.read before other = .ok found

theorem Storage.Lawful.written {σ : Type} {storage : Storage σ} {sameFile : σ → String → String → Prop}
    {before after : σ} {path text : String} (lawful : storage.Lawful sameFile)
    (done : storage.write before path text = (.ok (), after)) :
    storage.Written sameFile before after path text where
  write := done
  holds := lawful.holds done (lawful.itself before path)
  same _ := lawful.holds done
  others _ := lawful.others done

/- A folder of files, named inside of it or from the root. Those that are locked are only read. -/
structure Shelf where
  held : List Char → Option String
  locked : List Char → Bool

namespace Shelf

def name (path : String) : List Char :=
  match path.toList with
  | '/' :: 'w' :: '/' :: name | '.' :: '/' :: name => name
  | name => name

def storage : Storage Shelf where
  read shelf path :=
    match shelf.held (name path) with
    | none => .error .notFound
    | some text => .ok text
  write shelf path text :=
    if '/' ∈ name path ∨ name path = [] then (.error .notFound, shelf)
    else if shelf.locked (name path) then (.error (.refused "Permission denied"), shelf)
    else (.ok (), { shelf with held := Function.update shelf.held (name path) (some text) })

theorem writes {shelf after : Shelf} {path text : String}
    (done : storage.write shelf path text = (.ok (), after)) :
    after = { shelf with held := Function.update shelf.held (name path) (some text) } := by
  simp only [storage] at done
  split at done
  · cases done
  split at done
  · cases done
  exact (Prod.mk.inj done).2.symm

theorem lawful : storage.Lawful fun _ path other => name path = name other where
  itself _ _ := rfl
  kept failed := by
    simp only [storage] at failed
    split at failed
    · exact (Prod.mk.inj failed).2.symm
    split at failed
    · exact (Prod.mk.inj failed).2.symm
    · cases failed
  holds done same := by
    rw [writes done]
    simp [storage, ← same]
  others done apart found := by
    rw [writes done]
    simp [storage, Function.update_of_ne (Ne.symm apart)]

end Shelf
end EdmxPruning
