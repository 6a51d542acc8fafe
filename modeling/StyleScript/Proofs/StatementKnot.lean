import StyleScript.Proofs.Excerpts
import StyleScript.Proofs.ExprKnot
import StyleScript.Proofs.Skipping

/-! Blocks, the items in them and the branches of a condition are read under bounds. Each asks
for the others only after it took a character, so that these bounds too can be forgotten, whatever
slicer there is. With plain slices, no cut is left in what is read. -/

namespace StyleScript.Statement.Grammar
open Reading Trivia
open Text (Stops)

section
variable {ε α : Type}

@[grind ←]
theorem proceeds_remaining : (remaining : Reading ε Text).Proceeds := by
  intro text value rest reads
  cases reads
  exact List.suffix_refl _

@[grind ←]
theorem proceeds_ofExcept (result : Except ε α) : (ofExcept result).Proceeds := by
  intro text value rest reads
  cases result with
  | error cause => cases reads
  | ok found =>
    cases reads
    exact List.suffix_refl _

end

@[grind ←]
theorem proceeds_skipTrivia {ε : Type} : (skipTrivia : Reading ε Unit).Proceeds := by
  intro text value rest reads
  cases reads
  exact skip_suffix text

theorem fromHeaderEnd_suffix (quote : Option Char) (text : Text) : fromHeaderEnd quote text <:+ text := by
  induction text generalizing quote with
  | nil => exact List.suffix_refl _
  | cons c text ih =>
    rw [fromHeaderEnd]
    split
    · exact List.suffix_refl _
    · exact (ih _).trans (List.suffix_cons c text)

@[grind ←]
theorem proceeds_skipHeader {ε : Type} : (skipHeader : Reading ε Unit).Proceeds := by
  intro text value rest reads
  cases reads
  exact fromHeaderEnd_suffix none text

theorem progresses_directive : directive.Progresses := by
  have word (word : String) (meaning : Directive) (nonempty : word.toList ≠ []) :
      (do Parser.keyword word; return meaning : Parser Directive).Progresses :=
    (Parser.progresses_keyword nonempty).bind fun _ => proceeds_pure _
  exact Parser.progresses_orElse (word _ _ (by decide)) <| Parser.progresses_orElse (word _ _ (by decide)) <|
    Parser.progresses_orElse (word _ _ (by decide)) <|
      Parser.progresses_orElse (word _ _ (by decide)) (word _ _ (by decide))

@[grind ←]
theorem proceeds_isDefault : isDefault.Proceeds :=
  (Parser.proceeds_optional (Parser.proceeds_blanks.bind fun _ => Parser.proceeds_keyword _)).bind fun _ =>
    proceeds_pure _

theorem progresses_expressionStart : expressionStart.Progresses :=
  Parser.proceeds_blanks.bind_progresses fun _ => proceeds_remaining.bind_progresses fun _ =>
    Expr.progresses_expr.bind fun _ => proceeds_pure _

theorem expressionStart_eq (text : Text) : expressionStart text =
    (Expr.parser (Text.dropBlanks text)).map fun result => (Text.dropBlanks text, result.2) := by
  change followedBy Expr.parser _ (Text.dropBlanks text) = _
  rw [followedBy]
  cases Expr.parser (Text.dropBlanks text) <;> rfl

section
variable {ε α : Type} [Slicer ε] (sheet : Sheet)

theorem exists_fault (cause : SyntaxFault) (text : Text) :
    ∃ stop, (fault sheet cause : Reading ε α) text = .error stop := by
  rw [fault]
  cases (sheet.cutSite text : Except ε Site) with
  | error stop => exact ⟨stop, rfl⟩
  | ok site => exact ⟨_, rfl⟩

@[grind ←]
theorem proceeds_fault (cause : SyntaxFault) : (fault sheet cause : Reading ε α).Proceeds := by
  intro text value rest reads
  obtain ⟨stop, fails⟩ := exists_fault (ε := ε) (α := α) sheet cause text
  rw [fails] at reads
  cases reads

theorem located_eq_ok {parser : Parser α} {text rest : Text} {value : α} :
    (located sheet parser : Reading ε α) text = .ok (value, rest) ↔ parser text = .ok (value, rest) := by
  rw [located]
  cases parser text with
  | error place =>
    obtain ⟨stop, fails⟩ := exists_fault (ε := ε) (α := α) sheet (.ofPlace place) text
    simp [fails]
  | ok result => simp

@[grind ←]
theorem proceeds_located {parser : Parser α} (proceeds : parser.Proceeds) :
    (located sheet parser : Reading ε α).Proceeds :=
  fun _ _ _ reads => proceeds _ _ _ ((located_eq_ok sheet).1 reads)

theorem progresses_located {parser : Parser α} (progresses : parser.Progresses) :
    (located sheet parser : Reading ε α).Progresses :=
  fun _ _ _ reads => progresses _ _ _ ((located_eq_ok sheet).1 reads)

@[grind ←]
theorem progresses_expression : (expression sheet : Reading ε Text).Progresses := by
  apply (progresses_located sheet progresses_expressionStart).bind
  exact fun _ => proceeds_remaining.bind fun _ => proceeds_ofExcept _

theorem mark_eq_ok {expected : Char} {text rest : Text} {value : Unit} :
    (mark sheet expected : Reading ε Unit) text = .ok (value, rest) ↔ text = expected :: rest := by
  have inner : Parser.char expected text = .ok (value, rest) ↔ text = expected :: rest := Parser.char_eq_ok
  rw [← inner, mark]
  cases Parser.char expected text with
  | error place =>
    obtain ⟨stop, fails⟩ := exists_fault (ε := ε) (α := Unit) sheet (.expected expected) text
    simp [fails]
  | ok result => simp

@[grind ←]
theorem progresses_mark (expected : Char) : (mark sheet expected : Reading ε Unit).Progresses := by
  intro text value rest reads
  rw [(mark_eq_ok sheet).1 reads]
  exact ⟨List.suffix_cons _ _, Nat.lt_succ_self _⟩

@[grind ←]
theorem proceeds_terminator : (terminator sheet : Reading ε Unit).Proceeds := by
  refine proceeds_skipTrivia.bind fun _ => proceeds_remaining.bind fun rest => ?_
  split
  · exact proceeds_pure _
  · exact (progresses_mark sheet ';').proceeds

theorem proceeds_single (build : Excerpt → Text → Statement) (start : Text) :
    (single sheet build start : Reading ε Statement).Proceeds :=
  (progresses_expression sheet).proceeds.bind fun _ => proceeds_remaining.bind fun _ =>
    (proceeds_ofExcept _).bind fun _ => (proceeds_terminator sheet).bind fun _ => proceeds_pure _

@[grind ←]
theorem progresses_target : (target sheet).Progresses :=
  (Parser.progresses_char _).bind fun _ => Parser.progresses_identifier.proceeds.bind fun _ =>
    Parser.proceeds_blanks.bind fun _ => (Parser.progresses_char _).proceeds.bind fun _ => proceeds_pure _

theorem progresses_assignment : (assignment sheet : Reading ε Statement).Progresses := by
  refine proceeds_remaining.bind_progresses fun _ => (progresses_located sheet (progresses_target sheet)).bind fun _ => ?_
  exact (progresses_expression sheet).proceeds.bind fun _ => (proceeds_located sheet proceeds_isDefault).bind fun _ =>
    proceeds_remaining.bind fun _ => (proceeds_ofExcept _).bind fun _ => (proceeds_terminator sheet).bind fun _ =>
      proceeds_pure _

variable {items : Reading ε (List Statement)} (proceeds : items.Proceeds)
include proceeds

@[grind ←]
theorem progresses_block : (block sheet items).Progresses :=
  proceeds_skipTrivia.bind_progresses fun _ => (progresses_mark sheet '{').bind fun _ => proceeds.bind fun _ =>
    (progresses_mark sheet '}').proceeds.bind fun _ => proceeds_pure _

theorem proceeds_function (start : Text) : (function sheet items start).Proceeds := by
  refine proceeds_skipHeader.bind fun _ => proceeds_remaining.bind fun finish => (proceeds_ofExcept _).bind
    fun excerpt => (proceeds_ofExcept _).bind fun header => ?_
  split
  · exact (progresses_block sheet proceeds).proceeds.bind fun _ => proceeds_pure _
  · exact (proceeds_terminator sheet).bind fun _ => proceeds_pure _

theorem proceeds_elseIf {next : Reading ε Otherwise} (later : next.Proceeds) (start : Text) :
    (elseIf sheet items next start).Proceeds :=
  (progresses_expression sheet).proceeds.bind fun _ => (progresses_block sheet proceeds).proceeds.bind fun _ =>
    (proceeds_ofExcept _).bind fun _ => later.bind fun _ => proceeds_pure _

theorem proceeds_lastBlock : (lastBlock sheet items).Proceeds :=
  (progresses_block sheet proceeds).proceeds.bind fun _ => proceeds_pure _

end

section
variable {ε : Type} [Slicer ε] (sheet : Sheet) {size : Nat} {first second : Reading ε (List Statement)}
variable (agree : AgreeBelow size first second)
include agree

theorem agreeBelow_block : AgreeBelow size (block sheet first) (block sheet second) :=
  proceeds_skipTrivia.agreeBelow_bind fun _ => (progresses_mark sheet '{').proceeds.agreeBelow_bind fun _ =>
    agree.bind_left _

theorem agreeBelow_lastBlock : AgreeBelow size (lastBlock sheet first) (lastBlock sheet second) :=
  (agreeBelow_block sheet agree).bind_left _

theorem agreeBelow_function (start : Text) :
    AgreeBelow size (function sheet first start) (function sheet second start) := by
  refine proceeds_skipHeader.agreeBelow_bind fun _ => proceeds_remaining.agreeBelow_bind fun finish =>
    (proceeds_ofExcept _).agreeBelow_bind fun excerpt => (proceeds_ofExcept _).agreeBelow_bind fun header => ?_
  split
  · exact (agreeBelow_block sheet agree).bind_left _
  · exact agreeBelow_refl _ _

theorem agreeBelow_elseIf (proceeds : first.Proceeds) {next other : Reading ε Otherwise}
    (later : AgreeBelow size next other) (start : Text) :
    AgreeBelow size (elseIf sheet first next start) (elseIf sheet second other start) :=
  (progresses_expression sheet).proceeds.agreeBelow_bind fun _ =>
    .bind (progresses_block sheet proceeds).proceeds (agreeBelow_block sheet agree) fun _ =>
      (proceeds_ofExcept _).agreeBelow_bind fun _ => later.bind_left _

end

section
variable {ε : Type} [Slicer ε] (sheet : Sheet) (items : Reading ε (List Statement))

/-- One branch after a block, with a given reading for those after it. -/
def otherwiseStep (next : Reading ε Otherwise) : Reading ε Otherwise := fun rest =>
  match Parser.keyword "@else" (skip rest) with
  | .error _ => .ok (.nothing, rest)
  | .ok (_, afterElse) =>
    let start := skip afterElse
    match Parser.keyword "if" start with
    | .ok (_, afterIf) => elseIf sheet items next start afterIf
    | .error _ => lastBlock sheet items start

/-- All branches after a block. -/
def follow : Reading ε Otherwise := fun text => otherwise sheet items text text

variable {sheet items} {next : Reading ε Otherwise} {text afterElse afterIf : Text}

theorem otherwiseStep_nothing (refuses : (Parser.keyword "@else").Refuses (skip text)) :
    otherwiseStep sheet items next text = .ok (.nothing, text) := by
  obtain ⟨place, fails⟩ := refuses
  rw [otherwiseStep, fails]

theorem otherwiseStep_else (reads : Parser.keyword "@else" (skip text) = .ok ((), afterElse))
    (refuses : (Parser.keyword "if").Refuses (skip afterElse)) :
    otherwiseStep sheet items next text = lastBlock sheet items (skip afterElse) := by
  obtain ⟨place, fails⟩ := refuses
  simp only [otherwiseStep, reads, fails]

theorem otherwiseStep_if (reads : Parser.keyword "@else" (skip text) = .ok ((), afterElse))
    (word : Parser.keyword "if" (skip afterElse) = .ok ((), afterIf)) :
    otherwiseStep sheet items next text = elseIf sheet items next (skip afterElse) afterIf := by
  simp only [otherwiseStep, reads, word]

/-- The three ways to go on, with the fact that each rests on. -/
theorem otherwiseStep_cases (text : Text) :
    (Parser.keyword "@else").Refuses (skip text) ∨
      ∃ afterElse, Parser.keyword "@else" (skip text) = .ok ((), afterElse) ∧ afterElse.length < text.length ∧
        ((Parser.keyword "if").Refuses (skip afterElse) ∨
          ∃ afterIf, Parser.keyword "if" (skip afterElse) = .ok ((), afterIf) ∧ afterIf.length < text.length) := by
  obtain refuses | ⟨_, afterElse, reads⟩ := refuses_or_reads (Parser.keyword "@else") (skip text)
  · exact .inl refuses
  · have shorter := (Parser.progresses_keyword (by decide) _ _ _ reads).2
    have first := (skip_suffix text).length_le
    have second := (skip_suffix afterElse).length_le
    refine .inr ⟨afterElse, reads, by omega, ?_⟩
    obtain refuses | ⟨_, afterIf, word⟩ := refuses_or_reads (Parser.keyword "if") (skip afterElse)
    · exact .inl refuses
    · have again := (Parser.progresses_keyword (by decide) _ _ _ word).2
      exact .inr ⟨afterIf, word, by omega⟩

theorem proceeds_otherwiseStep (proceeds : items.Proceeds) (later : next.Proceeds) :
    (otherwiseStep sheet items next).Proceeds := by
  intro text value rest reads
  obtain refuses | ⟨afterElse, word, -, refuses | ⟨afterIf, more, -⟩⟩ := otherwiseStep_cases text
  · rw [otherwiseStep_nothing refuses] at reads
    cases reads
    exact List.suffix_refl _
  · rw [otherwiseStep_else word refuses] at reads
    have inner := (Parser.proceeds_keyword _ _ _ _ word).trans (skip_suffix text)
    exact (proceeds_lastBlock sheet proceeds _ _ _ reads).trans ((skip_suffix afterElse).trans inner)
  · rw [otherwiseStep_if word more] at reads
    have inner := (Parser.proceeds_keyword _ _ _ _ word).trans (skip_suffix text)
    have middle := (Parser.proceeds_keyword _ _ _ _ more).trans (skip_suffix afterElse)
    exact (proceeds_elseIf sheet proceeds later _ _ _ _ reads).trans (middle.trans inner)

theorem proceeds_otherwise (proceeds : items.Proceeds) : ∀ bound, (otherwise sheet items bound).Proceeds
  | [] => proceeds_pure _
  | _ :: bound => proceeds_otherwiseStep proceeds (proceeds_otherwise proceeds bound)

@[grind ←]
theorem proceeds_follow (proceeds : items.Proceeds) : (follow sheet items).Proceeds :=
  fun text => proceeds_otherwise proceeds text text

theorem agreeBelow_otherwiseStep {size : Nat} {others : Reading ε (List Statement)}
    {other : Reading ε Otherwise}
    (proceeds : items.Proceeds) (agree : AgreeBelow size items others) (later : AgreeBelow size next other) :
    AgreeBelow (size + 1) (otherwiseStep sheet items next) (otherwiseStep sheet others other) := by
  intro text shorter
  obtain refuses | ⟨afterElse, word, below, refuses | ⟨afterIf, more, inside⟩⟩ := otherwiseStep_cases text
  · rw [otherwiseStep_nothing refuses, otherwiseStep_nothing refuses]
  · rw [otherwiseStep_else word refuses, otherwiseStep_else word refuses]
    have within := (skip_suffix afterElse).length_le
    exact agreeBelow_lastBlock sheet agree _ (by omega)
  · rw [otherwiseStep_if word more, otherwiseStep_if word more]
    exact agreeBelow_elseIf sheet agree proceeds later _ _ (by omega)

theorem follow_eq (proceeds : items.Proceeds) :
    follow sheet items = otherwiseStep sheet items (follow sheet items) := by
  refine tied (otherwise sheet items) (otherwiseStep sheet items) ?_ (proceeds_otherwise proceeds) ?_ (fun _ _ => rfl)
  · exact fun _ _ _ _ agree => agreeBelow_otherwiseStep proceeds (agreeBelow_refl _ _) agree
  · intro reading text shorter
    obtain rfl : text = [] := List.length_eq_zero_iff.1 (by omega)
    have refuses : (Parser.keyword "@else").Refuses (skip []) := ⟨_, rfl⟩
    rw [otherwiseStep_nothing refuses]
    rfl

theorem agreeBelow_follow {size : Nat} {others : Reading ε (List Statement)} (proceeds : items.Proceeds)
    (agree : AgreeBelow size items others) : AgreeBelow size (follow sheet items) (follow sheet others) := by
  have within : ∀ bound, AgreeBelow size (otherwise sheet items bound) (otherwise sheet others bound) := by
    intro bound
    induction bound with
    | nil => exact agreeBelow_refl _ _
    | cons c bound ih => exact (agreeBelow_otherwiseStep proceeds agree ih).mono (Nat.le_succ _)
  exact fun text shorter => within text text shorter

theorem conditional_eq (start : Text) : conditional sheet items start = (do
    let condition ← expression sheet
    let excerpt ← ofExcept (sheet.cutExcerpt start (← remaining))
    let body ← block sheet items
    let next ← follow sheet items
    return .conditional excerpt condition body next) := rfl

theorem proceeds_conditional (proceeds : items.Proceeds) (start : Text) : (conditional sheet items start).Proceeds := by
  rw [conditional_eq]
  exact (progresses_expression sheet).proceeds.bind fun _ => proceeds_remaining.bind fun _ =>
    (proceeds_ofExcept _).bind fun _ => (progresses_block sheet proceeds).proceeds.bind fun _ =>
      (proceeds_follow proceeds).bind fun _ => proceeds_pure _

theorem agreeBelow_conditional {size : Nat} {others : Reading ε (List Statement)} (proceeds : items.Proceeds)
    (agree : AgreeBelow size items others) (start : Text) :
    AgreeBelow size (conditional sheet items start) (conditional sheet others start) := by
  rw [conditional_eq, conditional_eq]
  exact (progresses_expression sheet).proceeds.agreeBelow_bind fun _ => proceeds_remaining.agreeBelow_bind fun _ =>
    (proceeds_ofExcept _).agreeBelow_bind fun _ =>
      .bind (progresses_block sheet proceeds).proceeds (agreeBelow_block sheet agree) fun _ =>
        (agreeBelow_follow proceeds agree).bind_left _

end

section
variable {ε : Type} [Slicer ε] (sheet : Sheet) (items : Reading ε (List Statement))

/-- What a directive asks for after its word. -/
def directed (start : Text) : Directive → Reading ε Statement
  | .function => function sheet items start
  | .returns => single sheet .returns start
  | .conditional => conditional sheet items start
  | .print severity => single sheet (.print · severity ·) start

variable {sheet items}

theorem statement_of_directive {start rest : Text} {kind : Directive} (reads : directive start = .ok (kind, rest)) :
    statement sheet items start = directed sheet items start kind rest := by
  rw [statement, reads]
  cases kind <;> rfl

theorem statement_of_sigil {start : Text} (refuses : directive.Refuses start)
    (head : start.head? = some sheet.dialect.sigil) : statement sheet items start = assignment sheet start := by
  obtain ⟨place, fails⟩ := refuses
  rw [statement, fails]
  simp only
  rw [if_pos head]

theorem statement_of_neither {start : Text} (refuses : directive.Refuses start)
    (head : start.head? ≠ some sheet.dialect.sigil) :
    statement sheet items start = fault sheet .expectedStatement start := by
  obtain ⟨place, fails⟩ := refuses
  rw [statement, fails]
  simp only
  rw [if_neg head]

theorem statement_refuses {start : Text} (refuses : directive.Refuses start)
    (head : start.head? ≠ some sheet.dialect.sigil) : (statement sheet items).Refuses start := by
  rw [Refuses, statement_of_neither refuses head]
  exact exists_fault sheet .expectedStatement start

theorem proceeds_directed (proceeds : items.Proceeds) (start : Text) :
    ∀ kind, (directed sheet items start kind).Proceeds
  | .function => proceeds_function sheet proceeds start
  | .returns => proceeds_single sheet _ start
  | .conditional => proceeds_conditional proceeds start
  | .print severity => proceeds_single sheet (.print · severity ·) start

theorem progresses_statement (proceeds : items.Proceeds) : (statement sheet items).Progresses := by
  intro start value rest reads
  obtain refuses | ⟨kind, afterWord, word⟩ := refuses_or_reads directive start
  · by_cases head : start.head? = some sheet.dialect.sigil
    · rw [statement_of_sigil refuses head] at reads
      exact progresses_assignment sheet _ _ _ reads
    · exact absurd (statement_refuses refuses head) (not_refuses reads)
  · rw [statement_of_directive word] at reads
    obtain ⟨inside, shorter⟩ := progresses_directive _ _ _ word
    have later := proceeds_directed proceeds start kind _ _ _ reads
    exact ⟨later.trans inside, Nat.lt_of_le_of_lt later.length_le shorter⟩

theorem agreeBelow_statement {size : Nat} {others : Reading ε (List Statement)} (proceeds : items.Proceeds)
    (agree : AgreeBelow size items others) :
    AgreeBelow (size + 1) (statement sheet items) (statement sheet others) := by
  intro start shorter
  obtain refuses | ⟨kind, afterWord, word⟩ := refuses_or_reads directive start
  · obtain ⟨place, fails⟩ := refuses
    rw [statement, statement, fails]
  · rw [statement_of_directive word, statement_of_directive word]
    have below := (progresses_directive _ _ _ word).2
    have inner : AgreeBelow size (directed sheet items start kind) (directed sheet others start kind) := by
      cases kind with
      | function => exact agreeBelow_function sheet agree start
      | conditional => exact agreeBelow_conditional proceeds agree start
      | _ => exact agreeBelow_refl _ _
    exact inner afterWord (by omega)

variable (sheet items)

/-- One item, with a given reading for those after it. -/
def itemsStep (next : Reading ε (List Statement)) : Reading ε (List Statement) := fun text =>
  match skip text with
  | [] => .ok ([], [])
  | '}' :: rest => .ok ([], '}' :: rest)
  | ';' :: rest => next rest
  | start => (do return (← statement sheet items) :: (← next)) start

/-- All items up to a closing brace or the end. -/
def loop : Reading ε (List Statement) := fun text => itemsWithin sheet items text text

variable {sheet items} {next : Reading ε (List Statement)} {text rest : Text}

theorem itemsStep_end (same : skip text = rest) (ends : rest = [] ∨ rest.head? = some '}') :
    itemsStep sheet items next text = .ok ([], rest) := by
  obtain rfl | brace := ends
  · rw [itemsStep, same]
  · obtain ⟨tail, rfl⟩ := List.head?_eq_some_iff.1 brace
    rw [itemsStep, same]
    rfl

theorem itemsStep_semicolon (same : skip text = ';' :: rest) : itemsStep sheet items next text = next rest := by
  rw [itemsStep, same]
  rfl

theorem itemsStep_statement (same : skip text = rest) (nonempty : rest ≠ []) (brace : rest.head? ≠ some '}')
    (semicolon : rest.head? ≠ some ';') :
    itemsStep sheet items next text = (do return (← statement sheet items) :: (← next)) rest := by
  rw [itemsStep, same]
  split
  · exact absurd rfl nonempty
  · exact absurd rfl brace
  · exact absurd rfl semicolon
  · rfl

theorem items_cases (text : Text) :
    (skip text = [] ∨ (skip text).head? = some '}') ∨ (∃ rest, skip text = ';' :: rest ∧ rest.length < text.length) ∨
      skip text ≠ [] ∧ (skip text).head? ≠ some '}' ∧ (skip text).head? ≠ some ';' := by
  by_cases nothing : skip text = []
  · exact .inl (.inl nothing)
  · by_cases brace : (skip text).head? = some '}'
    · exact .inl (.inr brace)
    · by_cases semicolon : (skip text).head? = some ';'
      · obtain ⟨rest, same⟩ := List.head?_eq_some_iff.1 semicolon
        have shorter := (skip_suffix text).length_le
        rw [same, List.length_cons] at shorter
        exact .inr (.inl ⟨rest, same, shorter⟩)
      · exact .inr (.inr ⟨nothing, brace, semicolon⟩)

theorem proceeds_itemsStep (proceeds : items.Proceeds) (later : next.Proceeds) :
    (itemsStep sheet items next).Proceeds := by
  intro text value rest reads
  obtain ends | ⟨left, same, -⟩ | ⟨nonempty, brace, semicolon⟩ := items_cases text
  · rw [itemsStep_end rfl ends] at reads
    cases reads
    exact skip_suffix text
  · rw [itemsStep_semicolon same] at reads
    have inside := skip_suffix text
    rw [same] at inside
    exact (later _ _ _ reads).trans ((List.suffix_cons _ _).trans inside)
  · rw [itemsStep_statement rfl nonempty brace semicolon] at reads
    have both : (do return (← statement sheet items) :: (← next) : Reading ε (List Statement)).Proceeds :=
      (progresses_statement proceeds).proceeds.bind fun _ => later.bind fun _ => proceeds_pure _
    exact (both _ _ _ reads).trans (skip_suffix text)

theorem proceeds_itemsWithin (proceeds : items.Proceeds) : ∀ bound, (itemsWithin sheet items bound).Proceeds
  | [] => proceeds_skipTrivia.bind fun _ => proceeds_pure _
  | _ :: bound => proceeds_itemsStep proceeds (proceeds_itemsWithin proceeds bound)

theorem proceeds_loop (proceeds : items.Proceeds) : (loop sheet items).Proceeds :=
  fun text => proceeds_itemsWithin proceeds text text

theorem agreeBelow_itemsStep {size : Nat} {others other : Reading ε (List Statement)} (proceeds : items.Proceeds)
    (agree : AgreeBelow size items others) (later : AgreeBelow size next other) :
    AgreeBelow (size + 1) (itemsStep sheet items next) (itemsStep sheet others other) := by
  intro text shorter
  obtain ends | ⟨left, same, below⟩ | ⟨nonempty, brace, semicolon⟩ := items_cases text
  · rw [itemsStep_end rfl ends, itemsStep_end rfl ends]
  · rw [itemsStep_semicolon same, itemsStep_semicolon same]
    exact later left (by omega)
  · rw [itemsStep_statement rfl nonempty brace semicolon, itemsStep_statement rfl nonempty brace semicolon]
    have within := (skip_suffix text).length_le
    exact AgreeBelow.bind_progresses (progresses_statement proceeds) (agreeBelow_statement proceeds agree)
      (fun _ => later.bind_left _) (skip text) (by omega)

theorem loop_eq (proceeds : items.Proceeds) : loop sheet items = itemsStep sheet items (loop sheet items) := by
  refine tied (itemsWithin sheet items) (itemsStep sheet items) ?_ (proceeds_itemsWithin proceeds) ?_ (fun _ _ => rfl)
  · exact fun _ _ _ _ agree => agreeBelow_itemsStep proceeds (agreeBelow_refl _ _) agree
  · intro reading text shorter
    obtain rfl : text = [] := List.length_eq_zero_iff.1 (by omega)
    rw [itemsStep_end skip_nil (.inl rfl)]
    rfl

theorem agreeBelow_loop {size : Nat} {others : Reading ε (List Statement)} (proceeds : items.Proceeds)
    (agree : AgreeBelow size items others) : AgreeBelow (size + 1) (loop sheet items) (loop sheet others) := by
  have within : ∀ bound, AgreeBelow (size + 1) (itemsWithin sheet items bound) (itemsWithin sheet others bound) := by
    intro bound
    induction bound with
    | nil => exact agreeBelow_refl _ _
    | cons c bound ih => exact agreeBelow_itemsStep proceeds agree (ih.mono (Nat.le_succ _))
  exact fun text shorter => within text text shorter

end

section
variable {ε : Type} [Slicer ε] (sheet : Sheet)

/-- The items of a block or of a whole source. -/
def items : Reading ε (List Statement) := fun text => within sheet text text

theorem proceeds_within : ∀ bound, (within sheet bound : Reading ε (List Statement)).Proceeds
  | [] => proceeds_loop (proceeds_fault sheet _)
  | _ :: bound => proceeds_loop (proceeds_within bound)

theorem proceeds_items : (items sheet : Reading ε (List Statement)).Proceeds :=
  fun text => proceeds_within sheet text text

theorem items_eq_loop : (items sheet : Reading ε (List Statement)) = loop sheet (items sheet) := by
  refine tied (within sheet) (loop sheet) (fun _ _ _ proceeds agree => agreeBelow_loop proceeds agree)
    (proceeds_within sheet) ?_ (fun _ _ => rfl)
  intro reading text shorter
  obtain rfl : text = [] := List.length_eq_zero_iff.1 (by omega)
  rfl

/-- The items by what is met first, with every bound forgotten. -/
theorem items_eq : (items sheet : Reading ε (List Statement)) = itemsStep sheet (items sheet) (items sheet) := by
  have once : loop sheet (items sheet : Reading ε _) = itemsStep sheet (items sheet) (loop sheet (items sheet)) :=
    loop_eq (proceeds_items sheet)
  rw [← items_eq_loop] at once
  exact once

end

section
variable {α : Type} (sheet : Sheet)

theorem cutExcerpt_bind (start finish : Text) (next : Excerpt → Reading Fault α) :
    (ofExcept (sheet.cutExcerpt start finish) >>= next) = next (sheet.excerpt start finish) := rfl

theorem cutSite_bind (start : Text) (next : Site → Reading Fault α) :
    (ofExcept (sheet.cutSite start) >>= next) = next (sheet.siteOf start) := rfl

theorem mapError_fault (result : Except Fault α) : result.mapError Slicer.fault = result := by
  cases result <;> rfl

theorem expression_eq : expression sheet = located sheet (Expr.Grammar.argument Expr.parser) := by
  funext text
  have skips : Expr.Grammar.argument Expr.parser text = Parser.span Expr.parser (Text.dropBlanks text) := rfl
  change followedBy (located sheet expressionStart) _ text = located sheet _ text
  rw [followedBy, located, located, skips, expressionStart_eq, Parser.span]
  cases Expr.parser (Text.dropBlanks text) <;> rfl

/-- A source is accepted when nothing is left after its items. -/
theorem statements_of_items : sheet.statements =
    match items sheet sheet.source with
    | .error cause => .error cause
    | .ok (statements, []) => .ok statements
    | .ok (_, rest) => .error (.badSyntax (sheet.siteOf rest) .strayBrace) := by
  change (followedBy (items sheet) _ sheet.source).map Prod.fst = _
  rw [followedBy]
  rcases items sheet sheet.source with cause | ⟨statements, rest⟩
  · rfl
  · cases rest <;> rfl

end

end StyleScript.Statement.Grammar
