import EdmxPruning.Command.Selection
import EdmxPruning.Proofs.Markup.Nesting

/-! What a selection asks for. A job comes to a value or to an error whatever it logs; the entities of a
selection are those that are named directly and those of its profiles, feature by feature, or the first
feature that is unknown is the answer. -/
namespace EdmxPruning

namespace Job

variable {α β : Type}

def result (job : Job α) : Except CommandError α := job.run.value

theorem resultBind (job : Job α) (next : α → Job β) :
    (job >>= next).result = job.result.bind fun a => (next a).result := by
  unfold result
  show (ExceptT.bindCont next job.run.value).value = _
  cases job.run.value <;> rfl

@[simp] theorem resultOfExcept (x : Except CommandError α) : (ofExcept x).result = x := rfl

@[simp] theorem resultLog (events : List Event) : (log events).result = .ok () := rfl

@[simp] theorem resultLift (logged : Logged α) :
    result (ExceptT.lift logged : Job α) = .ok logged.value := rfl

end Job

theorem okOfMapError {ε ε' α : Type} {x : Except ε α} {f : ε → ε'} {a : α}
    (done : x.mapError f = .ok a) : x = .ok a := by
  cases x with
  | error own => cases done
  | ok own => cases done; rfl

theorem faultOfMapError {ε ε' α : Type} {x : Except ε α} {f : ε → ε'} {e : ε'}
    (failed : x.mapError f = .error e) : ∃ own, x = .error own ∧ f own = e := by
  cases x with
  | error own => cases failed; exact ⟨own, rfl, rfl⟩
  | ok a => cases failed

namespace Manifest

def lacks (m : Manifest) (name : String) : Bool := (m.find? name).isNone

def entitiesNamed (m : Manifest) (name : String) : List String :=
  ((m.find? name).map Profile.entities).getD []

/- The first name in the order of the request that no profile has, whatever stands around it. -/
theorem entitiesOfValue (m : Manifest) (names : List String) :
    (m.entitiesOf names).value = match names.find? m.lacks with
      | some name => .error name
      | none => .ok (names.flatMap m.entitiesNamed) := by
  induction names with
  | nil => rfl
  | cons name rest ih =>
    unfold entitiesOf
    cases found : m.find? name with
    | none =>
      have unknown : m.lacks name = true := by simp [lacks, found]
      rw [List.find?_cons_of_pos unknown]
      rfl
    | some profile =>
      have known : ¬ m.lacks name = true := by simp [lacks, found]
      have own : m.entitiesNamed name = profile.entities := by simp [entitiesNamed, found]
      rw [List.find?_cons_of_neg known, List.flatMap_cons, own]
      show ((m.entitiesOf rest).value.map (profile.entities ++ ·)) = _
      rw [ih]
      cases rest.find? m.lacks <;> rfl

end Manifest

namespace Selection

def profiled (read : Reader) (s : Selection) : Except CommandError (List String) :=
  match s.profile? with
  | none => .ok []
  | some path => (manifest read path).bind fun m =>
      match s.features.find? m.lacks with
      | some name => .error (.unknownProfile name)
      | none => .ok (s.features.flatMap m.entitiesNamed)

theorem fromProfilesResult (read : Reader) (s : Selection) :
    (s.fromProfiles read).result = s.profiled read := by
  unfold fromProfiles profiled
  cases s.profile? with
  | none => rfl
  | some path =>
    simp only [Job.resultBind, Job.resultOfExcept]
    refine congrArg (Except.bind _) (funext fun m => ?_)
    show (m.entitiesOf s.features).value.mapError CommandError.unknownProfile = _
    rw [Manifest.entitiesOfValue]
    cases s.features.find? m.lacks <;> rfl

theorem requestedResult (read : Reader) (s : Selection) :
    (s.requested read).result = (s.profiled read).bind fun listed =>
      if shortNames (s.entities ++ listed) = [] then .error .noEntitiesRequested
      else .ok (shortNames (s.entities ++ listed)) := by
  unfold requested
  rw [Job.resultBind, fromProfilesResult]
  refine congrArg (Except.bind _) (funext fun listed => ?_)
  cases shortNames (s.entities ++ listed) <;> rfl

theorem requestsNoOutput {read : Reader} {s : Selection} {e : CommandError}
    (failed : (s.requested read).result = .error e) (path : String) (fault : FileFault) :
    e ≠ .output path fault := by
  rintro rfl
  rw [requestedResult] at failed
  rcases bindFails failed with unlisted | ⟨listed, _, unasked⟩
  · unfold profiled at unlisted
    split at unlisted
    · cases unlisted
    · rcases bindFails unlisted with unread | ⟨m, _, unknown⟩
      · unfold manifest at unread
        split at unread
        · cases unread
        · split at unread <;> cases unread
      · split at unknown <;> cases unknown
  · split at unasked <;> cases unasked

end Selection
end EdmxPruning
