import StyleScript.Proofs.Isolation
import Mathlib.Data.List.Induction

/-! A context answers by what was done to it. Its frames are told apart in a history by following one frame
through what happens after it was entered: it is live as long as it was not left, and other frames may lie
inside of it. Outputs are followed from where they are emitted to where they are handed out. -/

namespace StyleScript.Context

/-- What can be done with a context. Bindings and lookups belong to the innermost frame; an output may be
emitted from every live frame, given by how many frames lie inside of it. -/
inductive Operation where
  | enter
  | leave
  | assign (name : Text) (value : Value)
  | findVariable (name : Text)
  | declare (key : Text) (definition : Definition)
  | findFunction (key : Text)
  | emit (inside : Nat) (output : Output)
  | drain

/-- Emits from the frame that has so many frames inside of it. These are not asked. -/
def emitFrom (output : Output) : Nat → Context → Context
  | 0, context => context.record output
  | inside + 1, ⟨frame, parent :: outer⟩ => { frame, outer := (emitFrom output inside ⟨parent, outer⟩).frames }
  | _ + 1, context => context

def perform (context : Context) : Operation → Context
  | .enter => context.push
  | .leave => context.pop
  | .assign name value => context.assign name value
  | .declare key definition => context.declare key definition
  | .emit inside output => context.emitFrom output inside
  | .drain => context.drain.2
  | .findVariable _ | .findFunction _ => context

def after (context : Context) (history : List Operation) : Context := history.foldl perform context

theorem after_append (context : Context) (first second : List Operation) :
    context.after (first ++ second) = (context.after first).after second :=
  List.foldl_append

/-- The number of frames inside of a frame after one more operation, unless that leaves the frame. -/
def Operation.moves : Operation → Nat → Option Nat
  | .enter, inside => some (inside + 1)
  | .leave, 0 => none
  | .leave, inside + 1 => some inside
  | _, inside => some inside

/-- Starting with a number of frames inside of it, a frame has as many inside of it after a history, unless it
is left. -/
def framesInside (inside : Nat) (history : List Operation) : Option Nat :=
  history.foldlM (fun inside operation => operation.moves inside) inside

def Operation.assigned : Operation → Option (Text × Value)
  | .assign name value => some (Name.variableKey name, value)
  | _ => none

def Operation.declared : Operation → Option (Text × Definition)
  | .declare key definition => some (key, definition)
  | _ => none

section
variable {α : Type} (binds : Operation → Option (Text × α)) (history : List Operation) (key : Text)

/-- The key was bound to the value, `later` is what happened since, and the frame where it was bound is live,
with so many frames inside of it. -/
def Bound (inside : Nat) (value : α) (later : List Operation) : Prop :=
  ∃ earlier operation, history = earlier ++ operation :: later ∧ binds operation = some (key, value) ∧
    framesInside 0 later = some inside

/-- The latest of the times that something was bound. -/
inductive Latest (bound : α → List Operation → Prop) : Option α → Prop where
  | found {value : α} {later : List Operation} (here : bound value later)
      (last : ∀ value' later', bound value' later' → later.length ≤ later'.length) : Latest bound (some value)
  | never (unbound : ∀ value later, ¬ bound value later) : Latest bound none

/-- What the key was bound to at last in the innermost live frame where it was bound at all. -/
inductive Answer : Option α → Prop where
  | found {inside : Nat} {value : α} (latest : Latest (Bound binds history key inside) (some value))
      (innermost : ∀ inside' value' later', Bound binds history key inside' value' later' → inside ≤ inside') :
      Answer (some value)
  | never (unbound : ∀ inside value later, ¬ Bound binds history key inside value later) : Answer none

end

/-- What an operation hands out. -/
def handsOut (context : Context) : Operation → List Output
  | .drain => context.drain.1
  | _ => []

def handedOut : Context → List Operation → List Output
  | _, [] => []
  | context, operation :: history => context.handsOut operation ++ handedOut (context.perform operation) history

def emitted (history : List Operation) : List Output :=
  history.filterMap fun
    | .emit _ output => some output
    | _ => none

/-- No frame but the root holds outputs. -/
def OutputsAtRoot (context : Context) : Prop := ∀ frame ∈ context.frames.dropLast, frame.outputs = []

/-- Starting at a depth, the root is not left, and outputs are emitted from live frames. -/
def KeepsRoot : Nat → List Operation → Prop
  | _, [] => True
  | depth, .enter :: later => KeepsRoot (depth + 1) later
  | depth, .leave :: later => 0 < depth ∧ KeepsRoot (depth - 1) later
  | depth, .emit inside _ :: later => inside ≤ depth ∧ KeepsRoot depth later
  | depth, _ :: later => KeepsRoot depth later

theorem Operation.moves_eq {operation : Operation} (enters : operation ≠ .enter) (leaves : operation ≠ .leave)
    (inside : Nat) : operation.moves inside = some inside := by
  cases operation with
  | enter => exact absurd rfl enters
  | leave => exact absurd rfl leaves
  | _ => rfl

theorem framesInside_concat (inside : Nat) (later : List Operation) (operation : Operation) :
    framesInside inside (later ++ [operation]) = (framesInside inside later).bind operation.moves := by
  rw [framesInside, List.foldlM_append]
  refine bind_congr fun before => ?_
  exact bind_pure _

section
variable {α : Type} {binds : Operation → Option (Text × α)} {history : List Operation} {key : Text}

theorem bound_concat {operation : Operation} {inside : Nat} {value : α} {later : List Operation} :
    Bound binds (history ++ [operation]) key inside value later ↔
      later = [] ∧ binds operation = some (key, value) ∧ inside = 0 ∨
        ∃ middle before, later = middle ++ [operation] ∧ Bound binds history key before value middle ∧
          operation.moves before = some inside := by
  constructor
  · rintro ⟨earlier, bound, same, binding, live⟩
    obtain rfl | ⟨middle, last, rfl⟩ := List.eq_nil_or_concat later
    · obtain ⟨rfl, rfl⟩ := List.append_inj' same rfl |>.imp_right List.singleton_inj.1
      exact .inl ⟨rfl, binding, (Option.some.inj live).symm⟩
    · rw [List.concat_eq_append, ← List.cons_append, ← List.append_assoc] at same
      obtain ⟨rfl, rfl⟩ := List.append_inj' same rfl |>.imp_right List.singleton_inj.1
      rw [List.concat_eq_append, framesInside_concat] at live
      obtain ⟨before, live, moved⟩ := Option.bind_eq_some_iff.1 live
      exact .inr ⟨middle, before, List.concat_eq_append, ⟨earlier, bound, rfl, binding, live⟩, moved⟩
  · rintro (⟨rfl, binding, rfl⟩ | ⟨middle, before, rfl, ⟨earlier, bound, rfl, binding, live⟩, moved⟩)
    · exact ⟨history, operation, rfl, binding, rfl⟩
    · refine ⟨earlier, bound, ?_, binding, ?_⟩
      · rw [List.append_assoc, List.cons_append]
      · rw [framesInside_concat, live]
        exact moved

/-- What was latest in a frame stays so, if the operation binds nothing there and comes to the frame from one. -/
theorem Latest.concat {operation : Operation} {before inside : Nat} {answer : Option α}
    (latest : Latest (Bound binds history key before) answer)
    (unbound : ∀ value, binds operation = some (key, value) → inside ≠ 0)
    (moves : ∀ place, operation.moves place = some inside ↔ place = before) :
    Latest (Bound binds (history ++ [operation]) key inside) answer := by
  have moved : ∀ value later, Bound binds (history ++ [operation]) key inside value later ↔
      ∃ middle, later = middle ++ [operation] ∧ Bound binds history key before value middle := by
    intro value later
    rw [bound_concat]
    constructor
    · rintro (⟨-, binding, here⟩ | ⟨middle, place, rfl, bound, came⟩)
      · exact absurd here (unbound value binding)
      · obtain rfl := (moves place).1 came
        exact ⟨middle, rfl, bound⟩
    · rintro ⟨middle, rfl, bound⟩
      exact .inr ⟨middle, before, rfl, bound, (moves before).2 rfl⟩
  cases latest with
  | @found value later here last =>
    refine .found ((moved value _).2 ⟨later, rfl, here⟩) fun value' later' again => ?_
    obtain ⟨middle, rfl, bound⟩ := (moved value' later').1 again
    have shorter := last value' middle bound
    rw [List.length_append, List.length_append]
    omega
  | never none =>
    refine .never fun value later bound => ?_
    obtain ⟨middle, -, bound⟩ := (moved value later).1 bound
    exact none value middle bound

theorem Latest.exists_value {bound : α → List Operation → Prop} {answer : Option α} (latest : Latest bound answer)
    {value : α} {later : List Operation} (made : bound value later) : ∃ last, answer = some last := by
  cases latest with
  | found here last => exact ⟨_, rfl⟩
  | never none => exact absurd made (none value later)

theorem Latest.unique {inside : Nat} {answer other : Option α}
    (latest : Latest (Bound binds history key inside) answer)
    (latest' : Latest (Bound binds history key inside) other) : answer = other := by
  cases latest with
  | never none =>
    cases latest' with
    | never _ => rfl
    | found here _ => exact absurd here (none _ _)
  | found here last =>
    cases latest' with
    | never none => exact absurd here (none _ _)
    | found here' last' =>
      have same := Nat.le_antisymm (last _ _ here') (last' _ _ here)
      obtain ⟨earlier, operation, whole, binding, -⟩ := here
      obtain ⟨earlier', operation', whole', binding', -⟩ := here'
      rw [whole] at whole'
      obtain ⟨-, tails⟩ := List.append_inj' whole' (by rw [List.length_cons, List.length_cons, same])
      obtain ⟨rfl, -⟩ := List.cons.inj tails
      rw [binding] at binding'
      cases binding'
      rfl

/-- A history gives one answer only. -/
theorem Answer.unique {answer other : Option α} (first : Answer binds history key answer)
    (second : Answer binds history key other) : answer = other := by
  cases first with
  | never none =>
    cases second with
    | never _ => rfl
    | found latest _ =>
      cases latest with
      | found here _ => exact absurd here (none _ _ _)
  | @found inside value latest innermost =>
    have ⟨later, here⟩ : ∃ later, Bound binds history key inside value later := by
      cases latest with
      | found here _ => exact ⟨_, here⟩
    cases second with
    | never none => exact absurd here (none _ _ _)
    | @found inside' value' latest' innermost' =>
      have ⟨later', here'⟩ : ∃ later', Bound binds history key inside' value' later' := by
        cases latest' with
        | found here' _ => exact ⟨_, here'⟩
      obtain rfl := Nat.le_antisymm (innermost _ _ _ here') (innermost' _ _ _ here)
      exact latest.unique latest'

/-- What a frame of the chain binds a key to by itself. -/
def ownAnswer (bindings : Scope → Bindings α) (context : Context) (inside : Nat) (key : Text) : Option α :=
  context.scopes[inside]?.bind fun scope => (bindings scope).find? key

/-- One kind of bindings, and the operations that make them. Those that neither enter nor leave change the
innermost scope at most. -/
structure Kind (bindings : Scope → Bindings α) (binds : Operation → Option (Text × α)) : Prop where
  blank : bindings {} = []
  enter : binds .enter = none
  leave : binds .leave = none
  stays (context : Context) {operation : Operation} (enters : operation ≠ .enter) (leaves : operation ≠ .leave) :
    ∃ scope, (context.perform operation).scopes = scope :: context.scopes.tail ∧
      bindings scope = match binds operation with
        | some (key, value) => (bindings context.frame.toScope).insert key value
        | none => bindings context.frame.toScope

end

theorem scopes_emitFrom (output : Output) (inside : Nat) (context : Context) :
    (context.emitFrom output inside).scopes = context.scopes := by
  induction inside generalizing context with
  | zero => rw [emitFrom, record_eq_holding, scopes_holding]
  | succ inside ih =>
    obtain ⟨frame, _ | ⟨parent, outer⟩⟩ := context
    · rfl
    · exact congrArg (frame.toScope :: ·) (ih ⟨parent, outer⟩)

theorem kind_values : Kind Scope.values Operation.assigned where
  blank := rfl
  enter := rfl
  leave := rfl
  stays context operation enters leaves := by
    cases operation with
    | enter => exact absurd rfl enters
    | leave => exact absurd rfl leaves
    | assign name value => exact ⟨_, rfl, rfl⟩
    | declare key definition => exact ⟨_, rfl, rfl⟩
    | emit inside output => exact ⟨context.frame.toScope, scopes_emitFrom output inside context, rfl⟩
    | findVariable name | findFunction key | drain => exact ⟨context.frame.toScope, rfl, rfl⟩

theorem kind_functions : Kind Scope.functions Operation.declared where
  blank := rfl
  enter := rfl
  leave := rfl
  stays context operation enters leaves := by
    cases operation with
    | enter => exact absurd rfl enters
    | leave => exact absurd rfl leaves
    | assign name value => exact ⟨_, rfl, rfl⟩
    | declare key definition => exact ⟨_, rfl, rfl⟩
    | emit inside output => exact ⟨context.frame.toScope, scopes_emitFrom output inside context, rfl⟩
    | findVariable name | findFunction key | drain => exact ⟨context.frame.toScope, rfl, rfl⟩

section
variable {α : Type} {bindings : Scope → Bindings α} {binds : Operation → Option (Text × α)}
  (kind : Kind bindings binds)
include kind

/-- Every frame of the chain binds what was bound in it at last. -/
def Tracks (bindings : Scope → Bindings α) (binds : Operation → Option (Text × α)) (history : List Operation)
    (context : Context) : Prop :=
  ∀ inside key, Latest (Bound binds history key inside) (context.ownAnswer bindings inside key)

theorem tracks_enter {history : List Operation} {context : Context} (tracks : Tracks bindings binds history context) :
    Tracks bindings binds (history ++ [.enter]) context.push := by
  intro inside key
  cases inside with
  | zero =>
    have nothing : context.push.ownAnswer bindings 0 key = none := congrArg (Bindings.find? · key) kind.blank
    rw [nothing]
    refine .never fun value later bound => ?_
    obtain ⟨-, binding, -⟩ | ⟨middle, before, -, -, moved⟩ := bound_concat.1 bound
    · rw [kind.enter] at binding
      cases binding
    · cases moved
  | succ inside =>
    refine (tracks inside key).concat (fun _ _ => Nat.succ_ne_zero inside) fun place => ?_
    simp [Operation.moves]

theorem tracks_leave {history : List Operation} {context : Context} (tracks : Tracks bindings binds history context) :
    Tracks bindings binds (history ++ [.leave]) context.pop := by
  intro inside key
  have unbound : ∀ value, binds .leave = some (key, value) → inside ≠ 0 := by
    intro value binding
    rw [kind.leave] at binding
    cases binding
  have moves : ∀ place, Operation.leave.moves place = some inside ↔ place = inside + 1 := by
    intro place
    cases place <;> simp [Operation.moves]
  have same : context.pop.ownAnswer bindings inside key = context.ownAnswer bindings (inside + 1) key := by
    obtain ⟨frame, _ | ⟨parent, outer⟩⟩ := context
    · cases inside with
      | zero => exact congrArg (Bindings.find? · key) kind.blank
      | succ inside => rfl
    · rfl
  rw [same]
  exact (tracks (inside + 1) key).concat unbound moves

theorem tracks_perform {history : List Operation} {context : Context} (tracks : Tracks bindings binds history context)
    (operation : Operation) : Tracks bindings binds (history ++ [operation]) (context.perform operation) := by
  by_cases enters : operation = .enter
  · subst enters
    exact tracks_enter kind tracks
  by_cases leaves : operation = .leave
  · subst leaves
    exact tracks_leave kind tracks
  intro inside key
  obtain ⟨scope, scopes, holds⟩ := kind.stays context enters leaves
  have moves : ∀ place, operation.moves place = some inside ↔ place = inside := by
    intro place
    rw [Operation.moves_eq enters leaves, Option.some.injEq]
  have own : (context.perform operation).ownAnswer bindings inside key =
      ((scope :: context.scopes.tail)[inside]?).bind fun scope => (bindings scope).find? key := by
    rw [ownAnswer, scopes]
  rw [own]
  cases inside with
  | succ inside => exact (tracks (inside + 1) key).concat (fun _ _ => Nat.succ_ne_zero inside) moves
  | zero =>
    change Latest _ ((bindings scope).find? key)
    rw [holds]
    rcases binding : binds operation with _ | ⟨bound, value⟩
    · exact (tracks 0 key).concat (fun value given => by rw [binding] at given; cases given) moves
    -- What is bound now is latest under its key, and all other keys keep what was latest before.
    · by_cases same : key = bound
      · subst same
        rw [Bindings.find?_insert_same]
        exact .found (bound_concat.2 (.inl ⟨rfl, binding, rfl⟩)) fun _ _ _ => Nat.zero_le _
      · rw [Bindings.find?_insert_of_ne _ _ same]
        refine (tracks 0 key).concat (fun value given => ?_) moves
        rw [binding] at given
        cases given
        exact absurd rfl same

theorem tracks_after (history : List Operation) : Tracks bindings binds history (empty.after history) := by
  induction history using List.reverseRecOn with
  | nil =>
    intro inside key
    have nothing : (empty.after []).ownAnswer bindings inside key = none := by
      cases inside with
      | zero => exact congrArg (Bindings.find? · key) kind.blank
      | succ inside => rfl
    rw [nothing]
    refine .never fun value later bound => ?_
    obtain ⟨earlier, operation, same, -⟩ := bound
    cases List.append_eq_nil_iff.1 same.symm |>.2
  | append_singleton history operation ih =>
    rw [after_append]
    exact tracks_perform kind ih operation

theorem answer_find? (history : List Operation) (key : Text) :
    Answer binds history key ((empty.after history).find? bindings key) := by
  have tracks := tracks_after kind history
  rw [find?]
  generalize empty.after history = context at tracks
  cases found : context.scopes.findSome? fun scope => (bindings scope).find? key with
  | some value =>
    obtain ⟨inner, scope, outer, scopes, binds, others⟩ := List.findSome?_eq_some_iff.1 found
    have own : context.ownAnswer bindings inner.length key = some value := by
      rw [ownAnswer, scopes, List.getElem?_append_right (Nat.le_refl _), Nat.sub_self]
      exact binds
    -- Frames inside of the one that answers do not bind the key, so it was never bound in them while they lived.
    refine .found (own ▸ tracks inner.length key) fun inside value later bound => ?_
    refine Nat.le_of_not_lt fun within => ?_
    have nothing : context.ownAnswer bindings inside key = none := by
      rw [ownAnswer, scopes, List.getElem?_append_left within, List.getElem?_eq_getElem within]
      exact others _ (List.getElem_mem within)
    obtain ⟨last, made⟩ := (tracks inside key).exists_value bound
    rw [nothing] at made
    cases made
  | none =>
    refine .never fun inside value later bound => ?_
    obtain ⟨last, made⟩ := (tracks inside key).exists_value bound
    obtain ⟨scope, held, binds⟩ := Option.bind_eq_some_iff.1 made
    rw [List.findSome?_eq_none_iff.1 found scope (List.mem_of_getElem? held)] at binds
    cases binds

end

/-- The scopes around one that stays live are the same as before. -/
theorem drop_scopes_after {history : List Operation} {inside left : Nat} {context : Context}
    (live : framesInside inside history = some left) :
    (context.after history).scopes.drop (left + 1) = context.scopes.drop (inside + 1) := by
  induction history generalizing inside context with
  | nil =>
    obtain rfl := Option.some.inj live
    rfl
  | cons operation history ih =>
    obtain ⟨inside', moved, live⟩ :
        ∃ inside', operation.moves inside = some inside' ∧ framesInside inside' history = some left :=
      Option.bind_eq_some_iff.1 live
    change ((context.perform operation).after history).scopes.drop (left + 1) = _
    rw [ih live]
    by_cases enters : operation = .enter
    · subst enters
      cases moved
      rfl
    by_cases leaves : operation = .leave
    · subst leaves
      obtain ⟨frame, outer⟩ := context
      cases inside with
      | zero => cases moved
      | succ inside =>
        cases moved
        cases outer with
        | nil => exact List.drop_nil.trans List.drop_nil.symm
        | cons parent outer => rfl
    · rw [Operation.moves_eq enters leaves] at moved
      obtain rfl := Option.some.inj moved
      obtain ⟨scope, scopes, -⟩ := kind_values.stays context enters leaves
      rw [scopes]
      rfl

/-- Leaving a frame gives its parent back. -/
theorem scopes_left (context : Context) {during : List Operation} (live : framesInside 0 during = some 0) :
    (context.after (.enter :: (during ++ [.leave]))).scopes = context.scopes := by
  have around : (context.push.after during).scopes.drop 1 = context.scopes := drop_scopes_after live
  rw [← List.cons_append, after_append]
  change (context.push.after during).pop.scopes = context.scopes
  generalize context.push.after during = inner at around
  obtain ⟨frame, _ | ⟨parent, outer⟩⟩ := inner
  · exact absurd around.symm (List.cons_ne_nil _ _)
  · exact around

theorem emitFrom_eq {inside : Nat} {context : Context} (within : inside ≤ context.depth) (output : Output) :
    context.emitFrom output inside = context.record output := by
  induction inside generalizing context with
  | zero => rfl
  | succ inside ih =>
    obtain ⟨frame, _ | ⟨parent, outer⟩⟩ := context
    · cases within
    · have above : emitFrom output inside ⟨parent, outer⟩ = record ⟨parent, outer⟩ output := ih (Nat.le_of_succ_le_succ within)
      exact congrArg (fun parent => Context.mk frame parent.frames) above

theorem outputsAtRoot_root (root : Frame) : OutputsAtRoot ⟨root, []⟩ := List.forall_mem_nil _

theorem outputsAtRoot_child (frame : Frame) (parent : Context) :
    OutputsAtRoot ⟨frame, parent.frames⟩ ↔ frame.outputs = [] ∧ parent.OutputsAtRoot :=
  List.forall_mem_cons

namespace OutputsAtRoot
variable {context : Context} (atRoot : context.OutputsAtRoot)
include atRoot

theorem pop : context.pop.OutputsAtRoot := by
  obtain ⟨frame, _ | ⟨parent, outer⟩⟩ := context
  · exact outputsAtRoot_root _
  · exact ((outputsAtRoot_child frame ⟨parent, outer⟩).1 atRoot).2

/-- It does not matter what the innermost frame binds, or whether it has handed out its outputs. -/
theorem replace {frame : Frame} (kept : frame.outputs = context.frame.outputs ∨ frame.outputs = []) :
    OutputsAtRoot { context with frame } := by
  obtain ⟨inner, _ | ⟨parent, outer⟩⟩ := context
  · exact outputsAtRoot_root _
  · obtain ⟨nothing, above⟩ := (outputsAtRoot_child inner ⟨parent, outer⟩).1 atRoot
    exact (outputsAtRoot_child frame ⟨parent, outer⟩).2 ⟨kept.elim (·.trans nothing) id, above⟩

/-- An output goes past every frame that has a parent. -/
theorem record (output : Output) : (context.record output).OutputsAtRoot := by
  induction context using chain_induction with
  | root frame => exact outputsAtRoot_root _
  | child frame parent ih =>
    obtain ⟨nothing, above⟩ := (outputsAtRoot_child frame parent).1 atRoot
    exact (outputsAtRoot_child frame _).2 ⟨nothing, ih above⟩

theorem emitFrom (output : Output) (inside : Nat) : (context.emitFrom output inside).OutputsAtRoot := by
  induction inside generalizing context with
  | zero => exact atRoot.record output
  | succ inside ih =>
    obtain ⟨frame, _ | ⟨parent, outer⟩⟩ := context
    · exact atRoot
    · obtain ⟨nothing, above⟩ := (outputsAtRoot_child frame ⟨parent, outer⟩).1 atRoot
      exact (outputsAtRoot_child frame _).2 ⟨nothing, ih above⟩

theorem perform (operation : Operation) : (context.perform operation).OutputsAtRoot := by
  cases operation with
  | enter => exact (outputsAtRoot_child {} context).2 ⟨rfl, atRoot⟩
  | leave => exact atRoot.pop
  | assign name value | declare key definition => exact atRoot.replace (.inl rfl)
  | drain => exact atRoot.replace (.inr rfl)
  | emit inside output => exact atRoot.emitFrom output inside
  | findVariable name | findFunction key => exact atRoot

theorem after (history : List Operation) : (context.after history).OutputsAtRoot := by
  induction history generalizing context with
  | nil => exact atRoot
  | cons operation history ih => exact ih (atRoot.perform operation)

end OutputsAtRoot

/-- The root hands out all that is held, and another frame hands out nothing. -/
theorem handed_append_held {context : Context} (atRoot : context.OutputsAtRoot) :
    context.drain.1 ++ context.drain.2.outputs = context.outputs ∧ context.drain.2.depth = context.depth := by
  obtain ⟨frame, _ | ⟨parent, outer⟩⟩ := context
  · exact ⟨List.append_nil _, rfl⟩
  · obtain ⟨nothing, -⟩ := (outputsAtRoot_child frame ⟨parent, outer⟩).1 atRoot
    exact ⟨congrArg (· ++ _) nothing, rfl⟩

theorem depth_record (context : Context) (output : Output) : (context.record output).depth = context.depth := by
  induction context using chain_induction with
  | root frame => rfl
  | child frame parent ih => exact congrArg (· + 1) ih

/-- What was held is handed out or still held, and all that was emitted comes after it. -/
theorem outputs_after {context : Context} (atRoot : context.OutputsAtRoot) {later : List Operation}
    (keeps : KeepsRoot context.depth later) :
    handedOut context later ++ (context.after later).outputs = context.outputs ++ emitted later := by
  induction later generalizing context with
  | nil => exact (List.append_nil context.outputs).symm
  | cons operation later ih =>
    change (context.handsOut operation ++ handedOut (context.perform operation) later) ++
      ((context.perform operation).after later).outputs = _
    rw [List.append_assoc]
    have next := atRoot.perform operation
    cases operation with
    | enter =>
      rw [ih next keeps]
      exact congrArg (· ++ _) context.outputs_push
    | leave =>
      obtain ⟨frame, _ | ⟨parent, outer⟩⟩ := context
      · exact absurd keeps.1 (Nat.lt_irrefl 0)
      · rw [ih next keeps.2]
        exact congrArg (· ++ _) (outputs_child frame ⟨parent, outer⟩).symm
    | assign name value =>
      rw [ih next keeps]
      exact congrArg (· ++ _) (context.outputs_assign name value)
    | declare key definition =>
      rw [ih next keeps]
      exact congrArg (· ++ _) (context.outputs_declare key definition)
    | emit inside output =>
      have recorded : context.perform (.emit inside output) = context.record output := emitFrom_eq keeps.1 output
      rw [recorded] at next ⊢
      rw [ih next (context.depth_record output ▸ keeps.2), outputs_record, List.append_assoc]
      rfl
    | drain =>
      obtain ⟨split, depth⟩ := handed_append_held atRoot
      rw [ih next (depth ▸ keeps), ← List.append_assoc]
      exact congrArg (· ++ _) split
    | findVariable name | findFunction key => exact ih next keeps

theorem outputsAtRoot_empty : empty.OutputsAtRoot := outputsAtRoot_root _

/-- A context is a store with scopes. A lookup answers what the key was bound to at last in the innermost live
frame where it was bound since that was entered; a variable has all spellings of its key. Leaving a frame gives
back every answer from before it was entered. As long as the root lives, what it hands out and what it then
holds are the outputs that it held and all that were emitted since, in that order. -/
theorem answers_of_history (history : List Operation) :
    let context := empty.after history
    (∀ name answer, context.findVariable name = answer ↔
      Answer Operation.assigned history (Name.variableKey name) answer) ∧
    (∀ key answer, context.findFunction key = answer ↔ Answer Operation.declared history key answer) ∧
    (∀ during, framesInside 0 during = some 0 →
      let left := context.after (.enter :: (during ++ [.leave]))
      (∀ name, left.findVariable name = context.findVariable name) ∧
      ∀ key, left.findFunction key = context.findFunction key) ∧
    ∀ later, KeepsRoot context.depth later →
      handedOut context later ++ (context.after later).outputs = context.outputs ++ emitted later ∧
      (context.after later).OutputsAtRoot := by
  intro context
  have values (name : Text) : Answer Operation.assigned history (Name.variableKey name) (context.findVariable name) :=
    answer_find? kind_values history (Name.variableKey name)
  have functions (key : Text) : Answer Operation.declared history key (context.findFunction key) :=
    answer_find? kind_functions history key
  refine ⟨fun name _ => ⟨?_, (values name).unique⟩, fun key _ => ⟨?_, (functions key).unique⟩, ?_, ?_⟩
  · rintro rfl
    exact values name
  · rintro rfl
    exact functions key
  · intro during live left
    have same : left.scopes = context.scopes := context.scopes_left live
    refine ⟨fun name => ?_, fun key => ?_⟩
    · rw [findVariable, find?, same]
      rfl
    · rw [findFunction, find?, same]
      rfl
  · have atRoot : context.OutputsAtRoot := outputsAtRoot_empty.after history
    exact fun later keeps => ⟨outputs_after atRoot keeps, atRoot.after later⟩

/-- Two spellings of a variable in two frames, a warning from inside of another frame, and a frame left. -/
theorem answers_of_history_shadowed :
    let outside : Value := .boolean true
    let inside : Value := .boolean false
    let history : List Operation := [.assign "a-b".toList outside, .enter, .assign "a-b".toList .null,
      .assign "a_b".toList inside]
    let warning : Output := ⟨.warn, ⟨['m'], 1⟩, ['w']⟩
    let debug : Output := ⟨.debug, ⟨['m'], 2⟩, ['d']⟩
    let during : List Operation := [.assign "a_b".toList .null, .enter, .emit 2 warning, .leave]
    let later : List Operation := [.enter, .emit 2 warning, .leave, .leave, .drain, .emit 0 debug, .drain]
    let context := empty.after history
    Answer Operation.assigned history (Name.variableKey "a-b".toList) (some inside) ∧
    Answer Operation.assigned (history ++ [.leave]) (Name.variableKey "a_b".toList) (some outside) ∧
    Answer Operation.declared history "a-b".toList none ∧
    framesInside 0 during = some 0 ∧
    (context.after (.enter :: (during ++ [.leave]))).findVariable "a_b".toList = some inside ∧
    KeepsRoot context.depth later ∧
    handedOut context later ++ (context.after later).outputs = [warning, debug] := by
  intro outside inside history warning debug during later context
  have keeps : KeepsRoot context.depth later := ⟨Nat.le_refl 2, Nat.two_pos, Nat.one_pos, Nat.le_refl 0, trivial⟩
  refine ⟨((answers_of_history history).1 _ _).1 rfl, ((answers_of_history _).1 _ _).1 rfl,
    ((answers_of_history history).2.1 _ _).1 rfl, rfl, ?_, keeps, ?_⟩
  · exact ((answers_of_history history).2.2.1 during rfl).1 "a_b".toList
  · exact ((answers_of_history history).2.2.2 later keeps).1

end StyleScript.Context
