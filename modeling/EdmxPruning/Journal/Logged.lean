import EdmxPruning.Journal.Event

/-! Results with the events that led to them. In a sequence the events follow each other as the
steps do. -/
namespace EdmxPruning

structure Logged (α : Type) where
  events : List Event
  value : α
  deriving Repr

namespace Logged

def log (events : List Event) : Logged Unit := ⟨events, ()⟩

def map {α β : Type} (f : α → β) (logged : Logged α) : Logged β := ⟨logged.events, f logged.value⟩

instance : Monad Logged where
  pure value := ⟨[], value⟩
  bind first next :=
    let second := next first.value
    ⟨first.events ++ second.events, second.value⟩

end Logged
end EdmxPruning
