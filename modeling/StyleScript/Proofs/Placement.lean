import StyleScript.Proofs.StatementKnot

/-! One source, read twice: by itself with plain slices, and on another sheet, perhaps with a slicer
of its own. Where that one hands out the same slices, only the sites in the tree differ, and the site
of the fault if there is one, by the same number of lines. So it is for a source below other lines. -/

namespace StyleScript
open Text (newlines)

variable (lines : Nat)

def Site.lowered (site : Site) : Site := { site with line := site.line + lines }

def Excerpt.lowered (excerpt : Excerpt) : Excerpt := { excerpt with site := excerpt.site.lowered lines }

def Header.lowered (header : Header) : Header := { header with excerpt := header.excerpt.lowered lines }

def Fault.lowered : Fault → Fault
  | .invalidDeclaration site text => .invalidDeclaration (site.lowered lines) text
  | .duplicateParameter function parameter declared => .duplicateParameter function parameter (declared.lowered lines)
  | .missingArgument function parameter declared called =>
    .missingArgument function parameter (declared.lowered lines) (called.lowered lines)
  | .badSyntax site cause => .badSyntax (site.lowered lines) cause
  | .undefinedVariable site name => .undefinedVariable (site.lowered lines) name
  | .undefinedFunction site name => .undefinedFunction (site.lowered lines) name
  | .operation site cause => .operation (site.lowered lines) cause
  | .returnOutsideFunction site => .returnOutsideFunction (site.lowered lines)

mutual
def Statement.lowered (lines : Nat) : Statement → Statement
  | .function header body => .function (header.lowered lines) (loweredAll lines body)
  | .returns excerpt expression => .returns (excerpt.lowered lines) expression
  | .assign excerpt name expression isDefault => .assign (excerpt.lowered lines) name expression isDefault
  | .conditional excerpt condition body next =>
    .conditional (excerpt.lowered lines) condition (loweredAll lines body) (next.lowered lines)
  | .print excerpt severity expression => .print (excerpt.lowered lines) severity expression

def loweredAll (lines : Nat) : List Statement → List Statement
  | [] => []
  | statement :: statements => statement.lowered lines :: loweredAll lines statements

def Otherwise.lowered (lines : Nat) : Otherwise → Otherwise
  | .nothing => .nothing
  | .block body => .block (loweredAll lines body)
  | .condition site condition body next =>
    .condition (site.lowered lines) condition (loweredAll lines body) (next.lowered lines)
end

theorem Fault.lowered_zero (fault : Fault) : fault.lowered 0 = fault := by
  cases fault <;> rfl

mutual
theorem Statement.lowered_zero : ∀ statement : Statement, statement.lowered 0 = statement
  | .function header body => congrArg (Statement.function header) (loweredAll_zero body)
  | .returns _ _ => rfl
  | .assign _ _ _ _ => rfl
  | .conditional excerpt condition body next =>
    congrArg₂ (Statement.conditional excerpt condition) (loweredAll_zero body) next.lowered_zero
  | .print _ _ _ => rfl

theorem loweredAll_zero : ∀ statements : List Statement, loweredAll 0 statements = statements
  | [] => rfl
  | statement :: statements => congrArg₂ List.cons statement.lowered_zero (loweredAll_zero statements)

theorem Otherwise.lowered_zero : ∀ next : Otherwise, next.lowered 0 = next
  | .nothing => rfl
  | .block body => congrArg Otherwise.block (loweredAll_zero body)
  | .condition site condition body next =>
    congrArg₂ (Otherwise.condition site condition) (loweredAll_zero body) next.lowered_zero
end

/-- What a result becomes: a value is moved in its own way, a fault by its sites. -/
def movedBy {ε α β : Type} [Slicer ε] (move : α → β) : Except Fault α → Except ε β
  | .ok value => .ok (move value)
  | .error fault => .error (Slicer.fault (fault.lowered lines))

namespace Header

theorem readParameters_lowered (dialect : Dialect) (excerpt : Excerpt) (function : Text) (seen texts : List Text) :
    readParameters dialect (excerpt.lowered lines) function seen texts =
      movedBy lines id (readParameters dialect excerpt function seen texts) := by
  induction texts generalizing seen with
  | nil => rfl
  | cons text texts ih =>
    rw [readParameters, readParameters]
    cases Parameter.ofText? dialect text with
    | none => rfl
    | some parameter =>
      dsimp only
      split
      · rfl
      · rw [ih]
        cases readParameters dialect excerpt function (Name.variableKey parameter.name :: seen) texts <;> rfl

theorem ofExcerpt_lowered (dialect : Dialect) (excerpt : Excerpt) :
    ofExcerpt dialect (excerpt.lowered lines) = movedBy lines (lowered lines) (ofExcerpt dialect excerpt) := by
  have same : (excerpt.lowered lines).source = excerpt.source := rfl
  rw [ofExcerpt, ofExcerpt, same]
  rcases signature excerpt.source with place | ⟨⟨name, list⟩, rest⟩
  · rfl
  · dsimp only
    rw [readParameters_lowered]
    cases readParameters dialect excerpt (Name.functionKey name) [] (parameterTexts list) <;> rfl

end Header

namespace Sheet

/-- All slices of a source can be had while the other sheet is read, with their sites moved. -/
structure CutAlike (ε : Type) [Slicer ε] (sheet lower : Sheet) : Prop where
  dialect : lower.dialect = sheet.dialect
  before {start finish : Text} (inside : start <:+ sheet.source) (later : finish <:+ start) :
    (Slicer.before start finish : Except ε Text) = .ok (Text.before start finish)
  site {start : Text} (inside : start <:+ sheet.source) :
    (lower.cutSite start : Except ε Site) = .ok ((sheet.siteOf start).lowered lines)

/-- The same source below a text. -/
def under (sheet : Sheet) (above : Text) : Sheet := { sheet with source := above ++ sheet.source }

theorem siteOf_under {sheet : Sheet} (above : Text) {start : Text} (inside : start <:+ sheet.source) :
    (sheet.under above).siteOf start = (sheet.siteOf start).lowered (newlines above) := by
  obtain ⟨consumed, whole⟩ := inside
  have below : (sheet.under above).source = (above ++ consumed) ++ start := by
    rw [under, ← whole, List.append_assoc]
  rw [siteOf_append below, siteOf_append whole.symm, Text.newlines_append, Site.lowered, Site.mk.injEq]
  exact ⟨rfl, by dsimp only; omega⟩

theorem cutAlike_under (sheet : Sheet) (above : Text) : CutAlike (newlines above) Fault sheet (sheet.under above) where
  dialect := rfl
  before _ _ := rfl
  site inside := congrArg Except.ok (siteOf_under above inside)

end Sheet

namespace Statement.Grammar
open Reading Trivia

section
variable {ε α β γ δ : Type} [Slicer ε]

/-- On the ends of a text, one reading does what the other does, with sites moved. -/
def Moves (whole : Text) (move : α → β) (reading : Reading Fault α) (other : Reading ε β) : Prop :=
  ∀ text, text <:+ whole → other text = movedBy lines (fun result => (move result.1, result.2)) (reading text)

variable {lines} {whole part : Text} {move : α → β} {later : γ → δ}

theorem moves_pure (value : α) : Moves lines whole move (pure value) (pure (move value) : Reading ε β) := fun _ _ => rfl

theorem Moves.mono {reading : Reading Fault α} {other : Reading ε β} (moves : Moves lines whole move reading other)
    (inside : part <:+ whole) : Moves lines part move reading other :=
  fun text later => moves text (later.trans inside)

theorem Moves.bind {reading : Reading Fault α} {other : Reading ε β} {next : α → Reading Fault γ}
    {next' : β → Reading ε δ} (moves : Moves lines whole move reading other) (proceeds : reading.Proceeds)
    (nexts : ∀ value, Moves lines whole later (next value) (next' (move value))) :
    Moves lines whole later (reading >>= next) (other >>= next') := by
  intro text inside
  change followedBy other next' text = movedBy lines _ (followedBy reading next text)
  rw [followedBy, followedBy, moves text inside]
  rcases reads : reading text with fault | ⟨value, rest⟩
  · rfl
  · exact nexts value rest ((proceeds _ _ _ reads).trans inside)

/-- What is still to be read is an end as well, and only its own ends come next. -/
theorem moves_remaining_bind {next : Text → Reading Fault α} {next' : Text → Reading ε β}
    (nexts : ∀ rest, rest <:+ whole → Moves lines rest move (next rest) (next' rest)) :
    Moves lines whole move (remaining >>= next) (remaining >>= next') :=
  fun text inside => nexts text inside text (List.suffix_refl _)

theorem moves_skipTrivia : Moves lines whole id skipTrivia (skipTrivia : Reading ε Unit) := fun _ _ => rfl

theorem moves_skipHeader : Moves lines whole id skipHeader (skipHeader : Reading ε Unit) := fun _ _ => rfl

theorem moves_header (dialect : Dialect) (excerpt : Excerpt) :
    Moves lines whole (Header.lowered lines) (ofExcept ((Header.ofExcerpt dialect excerpt).mapError Slicer.fault))
      (ofExcept ((Header.ofExcerpt dialect (excerpt.lowered lines)).mapError Slicer.fault) : Reading ε Header) := by
  intro text _
  rw [Header.ofExcerpt_lowered]
  cases Header.ofExcerpt dialect excerpt <;> rfl

end

section
variable {ε : Type} [Slicer ε] {lines : Nat} {sheet lower : Sheet} (cuts : sheet.CutAlike lines ε lower)
variable {whole : Text} (inside : whole <:+ sheet.source)
include cuts inside

theorem moves_excerpt {finish : Text} (later : finish <:+ whole) (part : Text) :
    Moves lines part (Excerpt.lowered lines) (ofExcept (sheet.cutExcerpt whole finish))
      (ofExcept (lower.cutExcerpt whole finish) : Reading ε Excerpt) := by
  intro text _
  rw [Sheet.cutExcerpt, cuts.before inside later, cuts.site inside]
  rfl

theorem moves_fault {α β : Type} {move : α → β} (cause : SyntaxFault) :
    Moves lines whole move (fault sheet cause) (fault lower cause : Reading ε β) := by
  intro text later
  rw [fault, cuts.site (later.trans inside)]
  rfl

theorem moves_located {α : Type} (parser : Parser α) :
    Moves lines whole id (located sheet parser) (located lower parser : Reading ε α) := by
  intro text later
  rw [located, located]
  cases parser text with
  | ok result => rfl
  | error place => exact moves_fault cuts inside (.ofPlace place) text later

theorem moves_expression : Moves lines whole id (expression sheet) (expression lower : Reading ε Text) := by
  intro text later
  have skips : Text.dropBlanks text <:+ sheet.source := (List.dropWhile_suffix _).trans (later.trans inside)
  change followedBy (located lower expressionStart) _ text =
    movedBy lines _ (followedBy (located sheet expressionStart) _ text)
  rw [followedBy, followedBy, located, located, expressionStart_eq]
  rcases reads : Expr.parser (Text.dropBlanks text) with place | ⟨expr, rest⟩
  · simp only [fault, cuts.site (later.trans inside)]
    rfl
  · change (Slicer.before _ rest).map _ = _
    rw [cuts.before skips (Expr.progresses_expr _ _ _ reads).1]
    rfl

theorem moves_mark (expected : Char) :
    Moves lines whole id (mark sheet expected) (mark lower expected : Reading ε Unit) := by
  intro text later
  rw [mark, mark]
  cases Parser.char expected text with
  | ok result => rfl
  | error place => exact moves_fault cuts inside (.expected expected) text later

theorem moves_terminator : Moves lines whole id (terminator sheet) (terminator lower : Reading ε Unit) := by
  apply moves_skipTrivia.bind proceeds_skipTrivia
  intro _
  apply moves_remaining_bind
  intro rest later
  split
  · exact moves_pure ()
  · exact moves_mark cuts (later.trans inside) ';'

theorem moves_assignment :
    Moves lines whole (Statement.lowered lines) (assignment sheet) (assignment lower : Reading ε Statement) := by
  have same : target lower = target sheet := by rw [target, target, cuts.dialect]
  apply moves_remaining_bind
  intro start later
  have inside := later.trans inside
  rw [same]
  apply (moves_located cuts inside (target sheet)).bind (proceeds_located sheet (progresses_target sheet).proceeds)
  intro name
  apply (moves_expression cuts inside).bind (progresses_expression sheet).proceeds
  intro text
  apply (moves_located cuts inside isDefault).bind (proceeds_located sheet proceeds_isDefault)
  intro isDefault
  apply moves_remaining_bind
  intro finish last
  apply (moves_excerpt cuts inside last _).bind (proceeds_ofExcept _)
  intro excerpt
  apply (moves_terminator cuts (last.trans inside)).bind (proceeds_terminator sheet)
  intro _
  exact moves_pure (Statement.assign excerpt name text isDefault)

end

section
variable {ε : Type} [Slicer ε] {lines : Nat} {sheet lower : Sheet} (cuts : sheet.CutAlike lines ε lower)
include cuts

theorem moves_single {build : Excerpt → Text → Statement}
    (moved : ∀ excerpt text, (build excerpt text).lowered lines = build (excerpt.lowered lines) text) {start : Text}
    (inside : start <:+ sheet.source) :
    Moves lines start (Statement.lowered lines) (single sheet build start)
      (single lower build start : Reading ε Statement) := by
  apply (moves_expression cuts inside).bind (progresses_expression sheet).proceeds
  intro text
  apply moves_remaining_bind
  intro finish later
  apply (moves_excerpt cuts inside later _).bind (proceeds_ofExcept _)
  intro excerpt
  apply (moves_terminator cuts (later.trans inside)).bind (proceeds_terminator sheet)
  intro _
  rw [id, ← moved]
  exact moves_pure _

variable {items : Reading Fault (List Statement)} {other : Reading ε (List Statement)} (proceeds : items.Proceeds)
variable (moves : Moves lines sheet.source (loweredAll lines) items other)
include proceeds moves

theorem moves_block {whole : Text} (inside : whole <:+ sheet.source) :
    Moves lines whole (loweredAll lines) (block sheet items) (block lower other) := by
  apply moves_skipTrivia.bind proceeds_skipTrivia
  intro _
  apply (moves_mark cuts inside '{').bind (progresses_mark sheet '{').proceeds
  intro _
  apply (moves.mono inside).bind proceeds
  intro body
  apply (moves_mark cuts inside '}').bind (progresses_mark sheet '}').proceeds
  intro _
  exact moves_pure body

theorem moves_function {start : Text} (inside : start <:+ sheet.source) :
    Moves lines start (Statement.lowered lines) (function sheet items start) (function lower other start) := by
  apply moves_skipHeader.bind proceeds_skipHeader
  intro _
  apply moves_remaining_bind
  intro finish later
  have last := later.trans inside
  apply (moves_excerpt cuts inside later _).bind (proceeds_ofExcept _)
  intro excerpt
  rw [cuts.dialect]
  apply (moves_header sheet.dialect excerpt).bind (proceeds_ofExcept _)
  intro header
  split
  · apply (moves_block cuts proceeds moves last).bind (progresses_block sheet proceeds).proceeds
    intro body
    exact moves_pure (Statement.function header body)
  · apply (moves_terminator cuts last).bind (proceeds_terminator sheet)
    intro _
    exact moves_pure (Statement.function header [])

theorem moves_lastBlock :
    Moves lines sheet.source (Otherwise.lowered lines) (lastBlock sheet items) (lastBlock lower other) := by
  apply (moves_block cuts proceeds moves (List.suffix_refl _)).bind (progresses_block sheet proceeds).proceeds
  intro body
  exact moves_pure (Otherwise.block body)

theorem moves_elseIf {next : Reading Fault Otherwise} {later : Reading ε Otherwise} (proceedsNext : next.Proceeds)
    (nexts : Moves lines sheet.source (Otherwise.lowered lines) next later) {start : Text}
    (inside : start <:+ sheet.source) :
    Moves lines sheet.source (Otherwise.lowered lines) (elseIf sheet items next start)
      (elseIf lower other later start) := by
  have all := List.suffix_refl sheet.source
  apply (moves_expression cuts all).bind (progresses_expression sheet).proceeds
  intro condition
  apply (moves_block cuts proceeds moves all).bind (progresses_block sheet proceeds).proceeds
  intro body
  rw [cuts.site inside]
  apply nexts.bind proceedsNext
  intro otherwise
  exact moves_pure (Otherwise.condition _ condition body otherwise)

theorem moves_otherwise (bound : Text) :
    Moves lines sheet.source (Otherwise.lowered lines) (otherwise sheet items bound) (otherwise lower other bound) := by
  induction bound with
  | nil => exact moves_pure Otherwise.nothing
  | cons c bound ih =>
    intro text inside
    change otherwiseStep lower other (otherwise lower other bound) text =
      movedBy _ _ (otherwiseStep sheet items (otherwise sheet items bound) text)
    obtain refuses | ⟨afterElse, word, -, branch⟩ := otherwiseStep_cases text
    · rw [otherwiseStep_nothing refuses, otherwiseStep_nothing refuses]
      rfl
    · have later : skip afterElse <:+ sheet.source :=
        (skip_suffix afterElse).trans
          ((Parser.proceeds_keyword _ _ _ _ word).trans ((skip_suffix text).trans inside))
      obtain refuses | ⟨afterIf, more, -⟩ := branch
      · rw [otherwiseStep_else word refuses, otherwiseStep_else word refuses]
        exact moves_lastBlock cuts proceeds moves _ later
      · rw [otherwiseStep_if word more, otherwiseStep_if word more]
        have last := (Parser.proceeds_keyword _ _ _ _ more).trans later
        exact moves_elseIf cuts proceeds moves (proceeds_otherwise proceeds bound) ih later _ last

theorem moves_conditional {start : Text} (inside : start <:+ sheet.source) :
    Moves lines start (Statement.lowered lines) (conditional sheet items start) (conditional lower other start) := by
  apply (moves_expression cuts inside).bind (progresses_expression sheet).proceeds
  intro condition
  apply moves_remaining_bind
  intro finish later
  apply (moves_excerpt cuts inside later _).bind (proceeds_ofExcept _)
  intro excerpt
  apply (moves_block cuts proceeds moves (later.trans inside)).bind (progresses_block sheet proceeds).proceeds
  intro body
  apply moves_remaining_bind
  intro rest last
  have branches := (moves_otherwise cuts proceeds moves rest).mono (last.trans (later.trans inside))
  apply branches.bind (proceeds_otherwise proceeds rest)
  intro next
  exact moves_pure (Statement.conditional excerpt condition body next)

theorem moves_statement :
    Moves lines sheet.source (Statement.lowered lines) (statement sheet items) (statement lower other) := by
  intro start inside
  have returns (excerpt : Excerpt) (text : Text) :
      (Statement.returns excerpt text).lowered lines = .returns (excerpt.lowered lines) text := rfl
  have prints (severity : Severity) (excerpt : Excerpt) (text : Text) :
      (Statement.print excerpt severity text).lowered lines = .print (excerpt.lowered lines) severity text := rfl
  have all := List.suffix_refl sheet.source
  obtain refuses | ⟨kind, afterWord, word⟩ := refuses_or_reads directive start
  · by_cases head : start.head? = some sheet.dialect.sigil
    · have same : start.head? = some lower.dialect.sigil := by rw [cuts.dialect, head]
      rw [statement_of_sigil refuses head, statement_of_sigil refuses same]
      exact moves_assignment cuts all start inside
    · have neither : start.head? ≠ some lower.dialect.sigil := by rwa [cuts.dialect]
      rw [statement_of_neither refuses head, statement_of_neither refuses neither]
      exact moves_fault cuts all .expectedStatement start inside
  · rw [statement_of_directive word, statement_of_directive word]
    have later := (progresses_directive _ _ _ word).1
    cases kind with
    | function => exact moves_function cuts proceeds moves inside _ later
    | returns => exact moves_single cuts returns inside _ later
    | conditional => exact moves_conditional cuts proceeds moves inside _ later
    | print severity => exact moves_single cuts (prints severity) inside _ later

theorem moves_itemsWithin (bound : Text) :
    Moves lines sheet.source (loweredAll lines) (itemsWithin sheet items bound) (itemsWithin lower other bound) := by
  induction bound with
  | nil => exact fun _ _ => rfl
  | cons c bound ih =>
    intro text inside
    change itemsStep lower other (itemsWithin lower other bound) text =
      movedBy _ _ (itemsStep sheet items (itemsWithin sheet items bound) text)
    have later := (skip_suffix text).trans inside
    obtain ends | ⟨left, same, -⟩ | ⟨nonempty, brace, semicolon⟩ := items_cases text
    · rw [itemsStep_end rfl ends, itemsStep_end rfl ends]
      rfl
    · rw [itemsStep_semicolon same, itemsStep_semicolon same]
      rw [same] at later
      exact ih left ((List.suffix_cons _ _).trans later)
    · rw [itemsStep_statement rfl nonempty brace semicolon, itemsStep_statement rfl nonempty brace semicolon]
      have both : Moves lines sheet.source (loweredAll lines)
          (do return (← statement sheet items) :: (← itemsWithin sheet items bound))
          (do return (← statement lower other) :: (← itemsWithin lower other bound)) := by
        apply (moves_statement cuts proceeds moves).bind (progresses_statement proceeds).proceeds
        intro first
        apply ih.bind (proceeds_itemsWithin proceeds bound)
        intro others
        exact moves_pure (first :: others)
      exact both _ later

end

section
variable {ε : Type} [Slicer ε] {lines : Nat} {sheet lower : Sheet} (cuts : sheet.CutAlike lines ε lower)
include cuts

theorem moves_within (bound : Text) :
    Moves lines sheet.source (loweredAll lines) (within sheet bound)
      (within lower bound : Reading ε (List Statement)) := by
  induction bound with
  | nil =>
    exact fun text inside =>
      moves_itemsWithin cuts (proceeds_fault sheet _) (moves_fault cuts (List.suffix_refl _) _) text text inside
  | cons c bound ih => exact fun text inside => moves_itemsWithin cuts (proceeds_within sheet bound) ih text text inside

/-- What is read from a place in a source is read from there on the other sheet, with its sites moved. -/
theorem moves_items :
    Moves lines sheet.source (loweredAll lines) (items sheet) (items lower : Reading ε (List Statement)) :=
  fun text inside => moves_within cuts text text inside

end

end Statement.Grammar
end StyleScript
