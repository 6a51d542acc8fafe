import StyleScript.Proofs.StatementKnot

/-! Where a source cannot be read. A fault belongs to the place where its part of the grammar began or
gave up, and so to a line of the source; what is read before it and after it does not matter. -/

namespace StyleScript

/-- What reading a source may fail with at a site. -/
inductive Fault.IsOfReading (site : Site) : Fault → Prop where
  | unreadable (cause : SyntaxFault) : IsOfReading site (.badSyntax site cause)
  | declaration (text : Text) : IsOfReading site (.invalidDeclaration site text)
  | repeated (function parameter : Text) : IsOfReading site (.duplicateParameter function parameter site)

theorem Fault.IsOfReading.site_eq {site : Site} {fault : Fault} (read : fault.IsOfReading site) : fault.site = site := by
  cases read <;> rfl

namespace Header

theorem readParameters_fault {dialect : Dialect} {excerpt : Excerpt} {function : Text} {seen texts : List Text}
    {fault : Fault} (fails : readParameters dialect excerpt function seen texts = .error fault) :
    fault.IsOfReading excerpt.site := by
  induction texts generalizing seen with
  | nil => cases fails
  | cons text texts ih =>
    rw [readParameters] at fails
    cases read : Parameter.ofText? dialect text with
    | none =>
      rw [read] at fails
      cases fails
      exact .declaration _
    | some parameter =>
      simp only [read] at fails
      split at fails
      · cases fails
        exact .repeated function _
      · cases later : readParameters dialect excerpt function (Name.variableKey parameter.name :: seen) texts with
        | ok parameters =>
          rw [later] at fails
          cases fails
        | error cause =>
          rw [later] at fails
          cases fails
          exact ih later

theorem ofExcerpt_fault {dialect : Dialect} {excerpt : Excerpt} {fault : Fault}
    (fails : ofExcerpt dialect excerpt = .error fault) : fault.IsOfReading excerpt.site := by
  rw [ofExcerpt] at fails
  split at fails
  · cases fails
    exact .declaration _
  next name list rest _ =>
    cases read : readParameters dialect excerpt (Name.functionKey name) [] (parameterTexts list) with
    | ok parameters =>
      simp only [read] at fails
      cases fails
    | error cause =>
      simp only [read] at fails
      cases fails
      exact readParameters_fault read

end Header

namespace Statement.Grammar
open Reading Trivia

section
variable {α β : Type} {sheet : Sheet}

/-- When the reading fails, the fault belongs to a place in the source. -/
def Placed (sheet : Sheet) (reading : Reading Fault α) : Prop :=
  ∀ text fault, reading text = .error fault → ∃ place, fault.IsOfReading (sheet.siteOf place)

theorem placed_of_ok {reading : Reading Fault α} (reads : ∀ text, ∃ result, reading text = .ok result) :
    Placed sheet reading := by
  intro text fault fails
  obtain ⟨result, ok⟩ := reads text
  rw [ok] at fails
  cases fails

theorem placed_pure (value : α) : Placed sheet (pure value) := placed_of_ok fun text => ⟨(value, text), rfl⟩

theorem Placed.bind {reading : Reading Fault α} {next : α → Reading Fault β} (first : Placed sheet reading)
    (second : ∀ value, Placed sheet (next value)) : Placed sheet (reading >>= next) := by
  intro text fault fails
  obtain early | ⟨value, middle, -, late⟩ := bind_eq_error.1 fails
  · exact first text fault early
  · exact second value middle fault late

theorem placed_remaining : Placed sheet remaining := placed_of_ok fun text => ⟨(text, text), rfl⟩

theorem placed_skipTrivia : Placed sheet skipTrivia := placed_of_ok fun text => ⟨((), skip text), rfl⟩

theorem placed_skipHeader : Placed sheet skipHeader := placed_of_ok fun text => ⟨((), fromHeaderEnd none text), rfl⟩

theorem placed_header (dialect : Dialect) (start finish : Text) :
    Placed sheet (ofExcept (Header.ofExcerpt dialect (sheet.excerpt start finish))) := by
  intro text fault fails
  cases read : Header.ofExcerpt dialect (sheet.excerpt start finish) with
  | ok header =>
    rw [read] at fails
    cases fails
  | error cause =>
    rw [read] at fails
    cases fails
    exact ⟨start, Header.ofExcerpt_fault read⟩

theorem placed_fault (cause : SyntaxFault) : Placed sheet (fault sheet cause : Reading Fault α) := by
  intro text fault fails
  cases fails
  exact ⟨text, .unreadable cause⟩

theorem placed_located (parser : Parser α) : Placed sheet (located sheet parser) := by
  intro text fault fails
  rw [located] at fails
  split at fails
  · cases fails
  · exact placed_fault _ text fault fails

theorem placed_expression : Placed sheet (expression sheet) := by
  rw [expression_eq]
  exact placed_located _

theorem placed_mark (expected : Char) : Placed sheet (mark sheet expected) := by
  intro text fault fails
  rw [mark] at fails
  split at fails
  · cases fails
  · exact placed_fault _ text fault fails

theorem placed_terminator : Placed sheet (terminator sheet) := by
  apply placed_skipTrivia.bind
  intro _
  apply placed_remaining.bind
  intro rest
  split
  · exact placed_pure ()
  · exact placed_mark ';'

theorem placed_assignment : Placed sheet (assignment sheet) := by
  apply placed_remaining.bind
  intro start
  apply (placed_located _).bind
  intro name
  apply placed_expression.bind
  intro text
  apply (placed_located _).bind
  intro isDefault
  apply placed_remaining.bind
  intro finish
  rw [cutExcerpt_bind]
  exact placed_terminator.bind fun _ => placed_pure _

theorem placed_single (build : Excerpt → Text → Statement) (start : Text) : Placed sheet (single sheet build start) := by
  apply placed_expression.bind
  intro text
  apply placed_remaining.bind
  intro finish
  rw [cutExcerpt_bind]
  exact placed_terminator.bind fun _ => placed_pure _

end

section
variable {sheet : Sheet} {items : Reading Fault (List Statement)} (placed : Placed sheet items)
include placed

theorem placed_block : Placed sheet (block sheet items) := by
  apply placed_skipTrivia.bind
  intro _
  apply (placed_mark '{').bind
  intro _
  apply placed.bind
  intro body
  exact (placed_mark '}').bind fun _ => placed_pure body

theorem placed_function (start : Text) : Placed sheet (function sheet items start) := by
  apply placed_skipHeader.bind
  intro _
  apply placed_remaining.bind
  intro finish
  rw [cutExcerpt_bind, mapError_fault]
  apply (placed_header sheet.dialect start finish).bind
  intro header
  split
  · exact (placed_block placed).bind fun _ => placed_pure _
  · exact placed_terminator.bind fun _ => placed_pure _

theorem placed_lastBlock : Placed sheet (lastBlock sheet items) :=
  (placed_block placed).bind fun _ => placed_pure _

theorem placed_elseIf {next : Reading Fault Otherwise} (later : Placed sheet next) (start : Text) :
    Placed sheet (elseIf sheet items next start) := by
  apply placed_expression.bind
  intro condition
  apply (placed_block placed).bind
  intro body
  rw [cutSite_bind]
  exact later.bind fun _ => placed_pure _

theorem placed_otherwise (bound : Text) : Placed sheet (otherwise sheet items bound) := by
  induction bound with
  | nil => exact placed_pure Otherwise.nothing
  | cons c bound ih =>
    intro text fault fails
    change otherwiseStep sheet items (otherwise sheet items bound) text = .error fault at fails
    obtain refuses | ⟨afterElse, word, -, refuses | ⟨afterIf, more, -⟩⟩ := otherwiseStep_cases text
    · rw [otherwiseStep_nothing refuses] at fails
      cases fails
    · rw [otherwiseStep_else word refuses] at fails
      exact placed_lastBlock placed _ fault fails
    · rw [otherwiseStep_if word more] at fails
      exact placed_elseIf placed ih _ _ fault fails

theorem placed_conditional (start : Text) : Placed sheet (conditional sheet items start) := by
  apply placed_expression.bind
  intro condition
  apply placed_remaining.bind
  intro finish
  rw [cutExcerpt_bind]
  apply (placed_block placed).bind
  intro body
  apply placed_remaining.bind
  intro rest
  exact (placed_otherwise placed rest).bind fun _ => placed_pure _

theorem placed_statement : Placed sheet (statement sheet items) := by
  intro start fault fails
  rw [statement] at fails
  split at fails
  · exact placed_function placed start _ fault fails
  · exact placed_single .returns start _ fault fails
  · exact placed_conditional placed start _ fault fails
  · exact placed_single _ start _ fault fails
  · split at fails
    · exact placed_assignment start fault fails
    · exact placed_fault _ start fault fails

theorem placed_itemsWithin (bound : Text) : Placed sheet (itemsWithin sheet items bound) := by
  induction bound with
  | nil => exact placed_skipTrivia.bind fun _ => placed_pure _
  | cons c bound ih =>
    have more : Placed sheet (do return (← statement sheet items) :: (← itemsWithin sheet items bound)) :=
      (placed_statement placed).bind fun _ => ih.bind fun _ => placed_pure _
    intro text fault fails
    change itemsStep sheet items (itemsWithin sheet items bound) text = .error fault at fails
    obtain ends | ⟨left, same, -⟩ | ⟨nonempty, brace, semicolon⟩ := items_cases text
    · rw [itemsStep_end rfl ends] at fails
      cases fails
    · rw [itemsStep_semicolon same] at fails
      exact ih left fault fails
    · rw [itemsStep_statement rfl nonempty brace semicolon] at fails
      exact more _ fault fails

end

theorem placed_within (sheet : Sheet) (bound : Text) : Placed sheet (within sheet bound) := by
  induction bound with
  | nil => exact fun text => placed_itemsWithin (placed_fault _) text text
  | cons c bound ih => exact fun text => placed_itemsWithin ih text text

end Statement.Grammar

namespace Sheet
open Statement.Grammar

theorem isOfReading_of_fault {sheet : Sheet} {fault : Fault} (fails : sheet.statements = .error fault) :
    ∃ place, fault.IsOfReading (sheet.siteOf place) := by
  rw [statements_of_items] at fails
  split at fails
  next cause failed =>
    cases fails
    exact placed_within sheet _ _ _ failed
  · cases fails
  next rest _ _ =>
    cases fails
    exact ⟨rest, .unreadable _⟩

theorem exists_place_of_fault {sheet : Sheet} {fault : Fault} (fails : sheet.statements = .error fault) :
    ∃ place, fault.site = sheet.siteOf place := by
  obtain ⟨place, read⟩ := isOfReading_of_fault fails
  exact ⟨place, read.site_eq⟩

theorem siteOf_bounds (sheet : Sheet) (place : Text) :
    (sheet.siteOf place).filename = sheet.filename ∧ 1 ≤ (sheet.siteOf place).line ∧
      (sheet.siteOf place).line ≤ 1 + Text.newlines sheet.source := by
  refine ⟨rfl, Nat.le_add_right 1 _, Nat.add_le_add_left ?_ 1⟩
  exact (List.take_sublist _ sheet.source).count_le '\n'

end Sheet
end StyleScript
