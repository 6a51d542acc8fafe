import StyleScript.Context
import StyleScript.Fault

/-! A run changes a context and ends with a value, with a fault, or because calls were nested
deeper than allowed. However it ends, what it did to the context stays done. -/

namespace StyleScript

inductive Outcome (α : Type) where
  | done (value : α)
  | failed (fault : Fault)
  | exhausted

def Run (α : Type) := Context → Outcome α × Context

namespace Run
variable {α β : Type}

/-- What comes next runs in the context that the first run leaves, if that has a value. -/
def followedBy (run : Run α) (next : α → Run β) : Run β := fun context =>
  match run context with
  | (.done value, after) => next value after
  | (.failed fault, after) => (.failed fault, after)
  | (.exhausted, after) => (.exhausted, after)

instance : Monad Run where
  pure value := fun context => (.done value, context)
  bind := followedBy

instance : LawfulMonad Run := LawfulMonad.mk' _
  (by
    intro α run
    funext context
    change followedBy run pure context = run context
    rw [followedBy]
    rcases run context with ⟨_ | _ | _, _⟩ <;> rfl)
  (fun _ _ => rfl)
  (by
    intro α β γ run next last
    funext context
    change followedBy (followedBy run next) last context =
      followedBy run (fun value => followedBy (next value) last) context
    simp only [followedBy]
    rcases run context with ⟨_ | _ | _, _⟩ <;> rfl)

def read (view : Context → α) : Run α := fun context => (.done (view context), context)

def change (update : Context → Context) : Run Unit := fun context => (.done (), update context)

def fail (fault : Fault) : Run α := fun context => (.failed fault, context)

def exhausted : Run α := fun context => (.exhausted, context)

/-- Runs in a new frame, which is left again however the run ends. -/
def inNewFrame (run : Run α) : Run α := fun context =>
  let (outcome, after) := run context.push
  (outcome, after.pop)

theorem bind_of_done {run : Run α} {context after : Context} {value : α}
    (ends : run context = (.done value, after)) (next : α → Run β) :
    (run >>= next) context = next value after := by
  change followedBy run next context = _
  rw [followedBy, ends]

theorem bind_of_failed {run : Run α} {context after : Context} {fault : Fault}
    (ends : run context = (.failed fault, after)) (next : α → Run β) :
    (run >>= next) context = (.failed fault, after) := by
  change followedBy run next context = _
  rw [followedBy, ends]

theorem bind_of_exhausted {run : Run α} {context after : Context}
    (ends : run context = (.exhausted, after)) (next : α → Run β) :
    (run >>= next) context = (.exhausted, after) := by
  change followedBy run next context = _
  rw [followedBy, ends]

theorem bind_of_eq {run run' : Run α} {context context' : Context} (same : run context = run' context')
    (next : α → Run β) : (run >>= next) context = (run' >>= next) context' := by
  change followedBy run next context = followedBy run' next context'
  rw [followedBy, followedBy, same]

end Run
end StyleScript
