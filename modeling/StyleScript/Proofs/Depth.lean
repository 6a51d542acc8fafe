import StyleScript.Proofs.Rules

/-! How deep calls may be nested. A run that is not cut short does not notice the bound: it ends the same
way wherever calls may be nested deeper, so what it ends with is the program's own doing. -/

namespace StyleScript

namespace Run
variable {α β : Type}

/-- The second run does what the first does, wherever that is not cut short. -/
def Extends (first second : Run α) : Prop :=
  ∀ context, (first context).1 ≠ .exhausted → second context = first context

theorem extends_refl (run : Run α) : run.Extends run := fun _ _ => rfl

theorem extends_exhausted (run : Run α) : exhausted.Extends run := fun _ ends => absurd rfl ends

theorem Extends.trans {first second third : Run α} (runs : first.Extends second) (others : second.Extends third) :
    first.Extends third := by
  intro context ends
  have same := runs context ends
  rw [← same] at ends
  rw [others context ends, same]

theorem Extends.bind {first second : Run α} {next next' : α → Run β} (runs : first.Extends second)
    (nexts : ∀ value, (next value).Extends (next' value)) : (first >>= next).Extends (second >>= next') := by
  intro context ends
  rcases began : first context with ⟨value | fault | _, after⟩
  · have same : second context = (.done value, after) := (runs context (by rw [began]; nofun)).trans began
    rw [bind_of_done began] at ends
    rw [bind_of_done began, bind_of_done same]
    exact nexts value after ends
  · have same : second context = (.failed fault, after) := (runs context (by rw [began]; nofun)).trans began
    rw [bind_of_failed began, bind_of_failed same]
  · rw [bind_of_exhausted began] at ends
    exact absurd rfl ends

theorem Extends.inNewFrame {first second : Run α} (runs : first.Extends second) :
    (inNewFrame first).Extends (inNewFrame second) := by
  intro context ends
  have same : second context.push = first context.push := runs context.push ends
  rw [Run.inNewFrame, Run.inNewFrame, same]

theorem rule_extends : BlockRule (fun _ => True) Extends where
  pure _ := extends_refl _
  fail _ := extends_refl _
  bind := Extends.bind
  lookup _ := extends_refl _
  assign _ _ := extends_refl _
  record _ := extends_refl _

end Run

open Run

def Caller.Extends (call call' : Caller) : Prop :=
  ∀ definition arguments called, (call definition arguments called).Extends (call' definition arguments called)

section
variable {call call' : Caller} (calls : call.Extends call')
include calls

theorem evaluate_extends (site : Site) (text : Text) : (evaluate call site text).Extends (evaluate call' site text) := by
  apply evaluate_related call' rule_extends.toRule fun _ _ => trivial
  intro expr _ name arguments _
  apply (extends_refl _).bind
  rintro (_ | definition)
  · exact extends_refl _
  · exact calls definition arguments site

theorem Node.extends (node : Node) : node.Related Extends call call' := by
  match node with
  | .statement (.function ..) => exact extends_refl _
  | .statement (.returns ..) | .statement (.assign ..) | .statement (.print ..) | .statement (.conditional ..)
  | .branch .. => exact evaluate_extends calls _ _

theorem Definition.callWith_extends : (callWith call).Extends (callWith call') := by
  intro definition arguments called
  apply Extends.inNewFrame
  apply (bindParameters_related call' rule_extends _ _ fun _ => trivial).bind
  · exact fun _ => result_related rule_extends fun node _ => node.extends calls
  · exact fun argument _ => evaluate_extends calls called argument
  · exact fun _ _ default _ => evaluate_extends calls definition.site default

end

namespace Definition

theorem callWithin_succ (depth : Nat) : (callWithin depth).Extends (callWithin (depth + 1)) := by
  induction depth with
  | zero => exact fun _ _ _ => extends_exhausted _
  | succ depth ih => exact callWith_extends ih

theorem callWithin_extends {depth deeper : Nat} (below : depth ≤ deeper) :
    (callWithin depth).Extends (callWithin deeper) := by
  induction below with
  | refl => exact fun _ _ _ => extends_refl _
  | step _ ih => exact fun definition arguments called => (ih definition arguments called).trans (callWithin_succ _ _ _ _)

end Definition

theorem outputsOf_deeper {depth deeper : Nat} (below : depth ≤ deeper) {statements : List Statement}
    (ends : outputsOf depth statements ≠ .exhausted) : outputsOf deeper statements = outputsOf depth statements := by
  have calls := Definition.callWithin_extends below
  have extended : (runTopLevel (Definition.callWithin depth) statements).Extends
      (runTopLevel (Definition.callWithin deeper) statements) :=
    runTopLevel_related rule_extends (fun _ => trivial) fun node _ => node.extends calls
  rw [outputsOf] at ends
  rw [outputsOf, outputsOf, extended Context.empty fun cut => ?_]
  generalize runTopLevel (Definition.callWithin depth) statements Context.empty = ended at ends cut
  obtain ⟨_ | _ | _, _⟩ := ended
  · cases cut
  · cases cut
  · exact ends rfl

end StyleScript
