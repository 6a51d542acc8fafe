import StyleScript.Proofs.Placement

/-! Slices that can fail. What stands before an end of a text, and the line on which an end of the
source begins, make sense for ends alone. Here is a slicer that checks: asked for a slice up to another
text, it stops the reading. No slice that reading asks for makes it stop. -/

namespace StyleScript

/-- Why a reading with checked slices stops. -/
inductive Stop where
  | fault (cause : Fault)
  /-- A slice was asked for up to a text that is not an end. -/
  | astray

instance : Slicer Stop where
  fault := .fault
  before whole rest := if rest <:+ whole then .ok (Text.before whole rest) else .error .astray

namespace Sheet
open Statement.Grammar

theorem checked_before {whole rest : Text} (inside : rest <:+ whole) :
    (Slicer.before whole rest : Except Stop Text) = .ok (Text.before whole rest) := if_pos inside

theorem cutAlike_checked (sheet : Sheet) : sheet.CutAlike 0 Stop sheet where
  dialect := rfl
  before _ later := checked_before later
  site inside := by
    rw [cutSite, checked_before inside]
    rfl

/-- Reading a source asks for no slice in vain. -/
theorem statementsBy_checked (sheet : Sheet) : sheet.statementsBy Stop = sheet.statements.mapError .fault := by
  have all := List.suffix_refl sheet.source
  have moves : Moves 0 sheet.source (loweredAll 0) (document sheet) (document sheet : Reading Stop _) := by
    apply (moves_within sheet.cutAlike_checked sheet.source).bind (proceeds_within sheet sheet.source)
    intro statements
    apply moves_remaining_bind
    intro rest later
    split
    · exact moves_pure statements
    · exact moves_fault sheet.cutAlike_checked later .strayBrace
  rw [statements, statementsBy, statementsBy, moves sheet.source all]
  rcases document sheet sheet.source with fault | ⟨found, rest⟩
  · rw [movedBy, Fault.lowered_zero]
    rfl
  · rw [movedBy, loweredAll_zero]
    rfl

end Sheet
end StyleScript
