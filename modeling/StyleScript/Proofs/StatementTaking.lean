import StyleScript.Proofs.StatementKnot
import StyleScript.Proofs.Atoms

/-! What the statement grammar takes: every reading as a relation between the part that is taken
and the rest, so that a source can be cut up along its statements and put together again. -/

namespace StyleScript.Statement.Grammar
open Reading Trivia
open Text (Stops)

section
variable {ε α β : Type}

theorem takes_remaining_bind {next : Text → Reading ε α} {taken rest : Text} {value : α} :
    (remaining >>= next).Takes taken value rest ↔ (next (taken ++ rest)).Takes taken value rest :=
  Iff.rfl

theorem takes_ofExcept_bind {result : Except ε β} {next : β → Reading ε α} {taken rest : Text} {value : α} :
    (ofExcept result >>= next).Takes taken value rest ↔
    ∃ found, result = .ok found ∧ (next found).Takes taken value rest := by
  constructor
  · intro reads
    obtain ⟨found, middle, first, later⟩ := bind_eq_ok.1 reads
    cases result with
    | error cause => cases first
    | ok value =>
      cases first
      exact ⟨found, rfl, later⟩
  · intro parts
    obtain ⟨found, same, later⟩ := parts
    rw [same]
    exact later

end

theorem takes_skipTrivia {ε : Type} {taken rest : Text} {value : Unit} :
    (skipTrivia : Reading ε Unit).Takes taken value rest ↔ skip (taken ++ rest) = rest := by
  rw [Takes, skipTrivia]
  simp

theorem takes_skipHeader {ε : Type} {taken rest : Text} {value : Unit} :
    (skipHeader : Reading ε Unit).Takes taken value rest ↔ fromHeaderEnd none (taken ++ rest) = rest := by
  rw [Takes, skipHeader]
  simp

/-- The words of the directives. -/
def directives : List (Text × Directive) :=
  [("@function".toList, .function), ("@return".toList, .returns), ("@if".toList, .conditional),
    ("@debug".toList, .print .debug), ("@warn".toList, .print .warn)]

theorem takes_directive {taken rest : Text} {kind : Directive} :
    directive.Takes taken kind rest ↔ (taken, kind) ∈ directives ∧ Stops Name.continues rest := by
  have word {word : String} {meaning kind : Directive} {taken : Text} :
      (do Parser.keyword word; return meaning : Parser Directive).Takes taken kind rest ↔
        taken = word.toList ∧ Stops Name.continues rest ∧ kind = meaning := by
    rw [takes_bind_pure]
    simp [Parser.takes_keyword, and_assoc]
  have refuses {word other : String} {meaning : Directive}
      (apart : ¬ word.toList <+: other.toList ∧ ¬ other.toList <+: word.toList) :
      (do Parser.keyword word; return meaning : Parser Directive).Refuses (other.toList ++ rest) := by
    refine refuses_bind.2 (.inl (Parser.refuses_keyword.2 fun left same _ => ?_))
    obtain one | two := List.prefix_or_prefix_of_prefix ⟨left, same.symm⟩ (List.prefix_append other.toList rest)
    · exact apart.1 one
    · exact apart.2 two
  rw [directive]
  simp only [Parser.takes_orElse, word, directives, List.mem_cons, Prod.mk.injEq, List.not_mem_nil, or_false]
  constructor
  · intro found
    obtain ⟨rfl, stops, rfl⟩ | ⟨-,
      ⟨rfl, stops, rfl⟩ | ⟨-, ⟨rfl, stops, rfl⟩ | ⟨-, ⟨rfl, stops, rfl⟩ | ⟨-, rfl, stops, rfl⟩⟩⟩⟩ :=
      found
    · exact ⟨.inl ⟨rfl, rfl⟩, stops⟩
    · exact ⟨.inr (.inl ⟨rfl, rfl⟩), stops⟩
    · exact ⟨.inr (.inr (.inl ⟨rfl, rfl⟩)), stops⟩
    · exact ⟨.inr (.inr (.inr (.inl ⟨rfl, rfl⟩))), stops⟩
    · exact ⟨.inr (.inr (.inr (.inr ⟨rfl, rfl⟩))), stops⟩
  · intro found
    obtain ⟨⟨rfl, rfl⟩ | ⟨rfl, rfl⟩ | ⟨rfl, rfl⟩ | ⟨rfl, rfl⟩ | ⟨rfl, rfl⟩, stops⟩ := found
    · exact .inl ⟨rfl, stops, rfl⟩
    · exact .inr ⟨refuses (by decide), .inl ⟨rfl, stops, rfl⟩⟩
    · exact .inr ⟨refuses (by decide), .inr ⟨refuses (by decide), .inl ⟨rfl, stops, rfl⟩⟩⟩
    · exact .inr ⟨refuses (by decide), .inr ⟨refuses (by decide), .inr ⟨refuses (by decide), .inl ⟨rfl, stops, rfl⟩⟩⟩⟩
    · exact .inr ⟨refuses (by decide), .inr ⟨refuses (by decide), .inr ⟨refuses (by decide),
        .inr ⟨refuses (by decide), rfl, stops, rfl⟩⟩⟩⟩

theorem head_of_directive {word : Text} {kind : Directive} (member : (word, kind) ∈ directives) :
    ∃ tail, word = '@' :: tail := by
  simp only [directives, List.mem_cons, Prod.mk.injEq, List.not_mem_nil, or_false] at member
  obtain ⟨rfl, -⟩ | ⟨rfl, -⟩ | ⟨rfl, -⟩ | ⟨rfl, -⟩ | ⟨rfl, -⟩ := member <;> exact ⟨_, rfl⟩

theorem refuses_directive_of_head {text : Text} (head : text.head? ≠ some '@') : directive.Refuses text := by
  obtain refuses | ⟨kind, rest, reads⟩ := refuses_or_reads directive text
  · exact refuses
  · obtain ⟨word, rfl, takes⟩ := progresses_directive.proceeds.takes reads
    obtain ⟨tail, rfl⟩ := head_of_directive (takes_directive.1 takes).1
    exact absurd rfl head

section
variable {sheet : Sheet}

theorem takes_located {α : Type} {parser : Parser α} {taken rest : Text} {value : α} :
    (located sheet parser).Takes taken value rest ↔ parser.Takes taken value rest :=
  located_eq_ok sheet

theorem takes_expression {taken value rest : Text} :
    (expression sheet).Takes taken value rest ↔ (Expr.Grammar.argument Expr.parser).Takes taken value rest := by
  rw [expression_eq]
  exact located_eq_ok sheet

theorem takes_mark {expected : Char} {taken rest : Text} {value : Unit} :
    (mark sheet expected).Takes taken value rest ↔ taken = [expected] := by
  rw [Takes, mark_eq_ok]
  change taken ++ rest = [expected] ++ rest ↔ _
  rw [List.append_cancel_right_eq]

/-- What ends a statement without being taken. -/
def Finishes (rest : Text) : Prop := rest = [] ∨ rest.head? = some '}'

theorem takes_terminator {taken rest : Text} {value : Unit} :
    (terminator sheet).Takes taken value rest ↔
      Finishes rest ∧ skip (taken ++ rest) = rest ∨
        ∃ gap, taken = gap ++ [';'] ∧ skip (gap ++ ';' :: rest) = ';' :: rest := by
  have last (left : Text) :
      (if left = [] ∨ left.head? = some '}' then return () else mark sheet ';' : Reading Fault Unit).Proceeds := by
    split
    · exact proceeds_pure _
    · exact (progresses_mark sheet ';').proceeds
  rw [terminator, takes_bind proceeds_skipTrivia fun _ => proceeds_remaining.bind last]
  simp only [takes_remaining_bind, takes_skipTrivia]
  constructor
  · intro parts
    obtain ⟨_, gap, tail, rfl, skipped, ends⟩ := parts
    split at ends
    next finishes =>
      obtain ⟨rfl, -⟩ := takes_pure.1 ends
      rw [List.append_nil]
      exact .inl ⟨finishes, skipped⟩
    next =>
      obtain rfl := takes_mark.1 ends
      exact .inr ⟨gap, rfl, skipped⟩
  · intro parts
    obtain ⟨finishes, skipped⟩ | ⟨gap, rfl, skipped⟩ := parts
    · refine ⟨(), taken, [], (List.append_nil _).symm, skipped, ?_⟩
      rw [List.nil_append, if_pos (show rest = [] ∨ rest.head? = some '}' from finishes)]
      exact takes_pure.2 ⟨rfl, rfl⟩
    · refine ⟨(), gap, [';'], rfl, skipped, ?_⟩
      rw [if_neg (by simp)]
      exact takes_mark.2 rfl

theorem takes_single {build : Excerpt → Text → Statement} {start taken rest : Text} {value : Statement} :
    (single sheet build start).Takes taken value rest ↔
      ∃ text written trailing, taken = written ++ trailing ∧
        (Expr.Grammar.argument Expr.parser).Takes written text (trailing ++ rest) ∧
        (terminator sheet).Takes trailing () rest ∧ value = build (sheet.excerpt start (trailing ++ rest)) text := by
  simp (disch := grind) only [single, cutExcerpt_bind, takes_bind (progresses_expression sheet).proceeds,
    takes_expression, takes_remaining_bind, takes_bind_pure]
  constructor
  · intro parts
    obtain ⟨text, written, trailing, rfl, reads, _, ends, rfl⟩ := parts
    exact ⟨text, written, trailing, rfl, reads, ends, rfl⟩
  · intro parts
    obtain ⟨text, written, trailing, rfl, reads, ends, rfl⟩ := parts
    exact ⟨text, written, trailing, rfl, reads, (), ends, rfl⟩

theorem separator_stops {gap : Text} (blank : ∀ c ∈ gap, Text.isBlank c = true) (dialect : Dialect) (rest : Text) :
    Stops Name.continues (gap ++ dialect.separator :: rest) ∧ Stops Text.isBlank (dialect.separator :: rest) := by
  constructor
  · cases gap with
    | nil => cases dialect <;> exact Text.stops_cons.2 (by decide)
    | cons c gap =>
      have space := blank c List.mem_cons_self
      simp only [Text.isBlank, Bool.or_eq_true, beq_iff_eq] at space
      obtain ((rfl | rfl) | rfl) | rfl := space <;> exact Text.stops_cons.2 (by decide)
  · cases dialect <;> exact Text.stops_cons.2 (by decide)

theorem takes_target {taken name rest : Text} :
    (target sheet).Takes taken name rest ↔
      ∃ gap, taken = sheet.dialect.sigil :: (name ++ (gap ++ [sheet.dialect.separator])) ∧
        Name.isIdentifier name = true ∧
        (∀ c ∈ gap, Text.isBlank c = true) := by
  simp (disch := grind) only [target, Parser.takes_char_bind, Parser.takes_identifier_bind, Parser.takes_blanks_bind,
    takes_bind_pure, Parser.takes_char]
  constructor
  · intro parts
    obtain ⟨_, rfl, _, _, rfl, identifier, -, gap, _, rfl, blank, -, _, rfl, rfl⟩ := parts
    exact ⟨gap, rfl, identifier, blank⟩
  · intro parts
    obtain ⟨gap, rfl, identifier, blank⟩ := parts
    obtain ⟨ends, visible⟩ := separator_stops blank sheet.dialect rest
    refine ⟨_, rfl, name, _, rfl, identifier, ?_, gap, _, rfl, blank, visible, (), rfl, rfl⟩
    rw [List.append_assoc]
    exact ends

theorem takes_isDefault {taken rest : Text} {value : Bool} :
    isDefault.Takes taken value rest ↔
      (∃ gap, value = true ∧ taken = gap ++ "!default".toList ∧ (∀ c ∈ gap, Text.isBlank c = true) ∧
        Stops Name.continues rest) ∨
      value = false ∧ taken = [] ∧ (Parser.keyword "!default").Refuses (Text.dropBlanks rest) := by
  simp (disch := grind) only [isDefault, takes_bind_pure, Parser.takes_optional, Parser.takes_blanks_bind,
    Parser.takes_keyword, Parser.refuses_blanks_bind]
  constructor
  · intro parts
    obtain ⟨_, ⟨_, rfl, gap, _, rfl, blank, -, rfl, stops⟩ | ⟨rfl, rfl, refuses⟩, rfl⟩ := parts
    · exact .inl ⟨gap, rfl, rfl, blank, stops⟩
    · exact .inr ⟨rfl, rfl, refuses⟩
  · intro parts
    obtain ⟨gap, rfl, rfl, blank, stops⟩ | ⟨rfl, rfl, refuses⟩ := parts
    · exact ⟨some (), .inl ⟨(), rfl, gap, _, rfl, blank, Text.stops_cons.2 (by decide), rfl, stops⟩, rfl⟩
    · exact ⟨none, .inr ⟨rfl, rfl, refuses⟩, rfl⟩

/-- An assignment is its target, an expression and perhaps the mark of a default. -/
theorem takes_assignment {taken rest : Text} {value : Statement} :
    (assignment sheet).Takes taken value rest ↔
      ∃ name text isDefault head written mark trailing, taken = head ++ (written ++ (mark ++ trailing)) ∧
        (target sheet).Takes head name (written ++ (mark ++ (trailing ++ rest))) ∧
        (Expr.Grammar.argument Expr.parser).Takes written text (mark ++ (trailing ++ rest)) ∧
        Grammar.isDefault.Takes mark isDefault (trailing ++ rest) ∧ (terminator sheet).Takes trailing () rest ∧
        value = .assign (sheet.excerpt (taken ++ rest) (trailing ++ rest)) name text isDefault := by
  simp (disch := grind) only [assignment, cutExcerpt_bind, takes_remaining_bind,
    takes_bind (proceeds_located sheet (progresses_target sheet).proceeds),
    takes_bind (progresses_expression sheet).proceeds, takes_bind (proceeds_located sheet proceeds_isDefault),
    takes_bind_pure, takes_located, takes_expression]
  constructor
  · intro parts
    obtain ⟨name, head, _, rfl, reads, text, written, _, rfl, inner, isDefault, mark, trailing, rfl, marks,
      _, terminates,
      rfl⟩ := parts
    refine ⟨name, text, isDefault, head, written, mark, trailing, rfl, ?_, ?_, marks, terminates, rfl⟩ <;> simp_all
  · intro parts
    obtain ⟨name, text, isDefault, head, written, mark, trailing, rfl, reads, inner, marks, terminates, rfl⟩ := parts
    refine ⟨name, head, _, rfl, ?_, text, written, _, rfl, ?_, isDefault, mark, trailing, rfl, marks, (),
      terminates, rfl⟩ <;>
      simp_all

end

/-- What is taken before a branch: a gap, the word that marks it, and another gap. -/
theorem exists_gaps {taken afterElse more rest : Text}
    (word : Parser.keyword "@else" (skip (taken ++ rest)) = .ok ((), afterElse)) (same : skip afterElse = more ++ rest) :
    ∃ gap between, taken = gap ++ ("@else".toList ++ (between ++ more)) ∧
      skip (gap ++ ("@else".toList ++ (between ++ (more ++ rest)))) = "@else".toList ++ (between ++ (more ++ rest)) ∧
      Stops Name.continues (between ++ (more ++ rest)) ∧ skip (between ++ (more ++ rest)) = more ++ rest := by
  obtain ⟨marked, stops⟩ := Parser.keyword_eq_ok.1 word
  obtain ⟨between, behind, -⟩ := exists_skipped afterElse
  rw [same] at behind
  subst behind
  have whole : skip (taken ++ rest) = "@else".toList ++ (between ++ more) ++ rest := by
    rw [marked, List.append_assoc, List.append_assoc]
  obtain ⟨gap, rfl, skipped⟩ := exists_gap whole
  rw [List.append_assoc, List.append_assoc] at skipped
  exact ⟨gap, between, rfl, skipped, stops, same⟩

section
variable {sheet : Sheet} {items : Reading Fault (List Statement)} (proceeds : items.Proceeds)
include proceeds

theorem takes_block {taken rest : Text} {body : List Statement} :
    (block sheet items).Takes taken body rest ↔
      ∃ gap inside, taken = gap ++ '{' :: (inside ++ ['}']) ∧
        skip (gap ++ '{' :: (inside ++ '}' :: rest)) = '{' :: (inside ++ '}' :: rest) ∧
        items.Takes inside body ('}' :: rest) := by
  simp (disch := grind) only [block, takes_bind proceeds_skipTrivia, takes_bind (progresses_mark sheet '{').proceeds,
    takes_bind proceeds, takes_bind_pure, takes_skipTrivia, takes_mark]
  constructor
  · intro parts
    obtain ⟨_, gap, _, rfl, skipped, _, _, _, rfl, rfl, body, inside, _, rfl, reads, _, rfl, rfl⟩ := parts
    exact ⟨gap, inside, rfl, by simpa using skipped, reads⟩
  · intro parts
    obtain ⟨gap, inside, rfl, skipped, reads⟩ := parts
    exact ⟨(), gap, _, rfl, by simpa using skipped, (), ['{'], _, rfl, rfl, body, inside, _, rfl, reads, (), rfl, rfl⟩

omit proceeds in
theorem takes_lastBlock {taken rest : Text} {value : Otherwise} :
    (lastBlock sheet items).Takes taken value rest ↔
      ∃ body, (block sheet items).Takes taken body rest ∧ value = .block body := by
  rw [lastBlock, takes_bind_pure]

theorem takes_elseIf {next : Reading Fault Otherwise} (later : next.Proceeds) {start taken rest : Text}
    {value : Otherwise} :
    (elseIf sheet items next start).Takes taken value rest ↔
      ∃ condition body otherwise written inside others, taken = written ++ (inside ++ others) ∧
        (Expr.Grammar.argument Expr.parser).Takes written condition (inside ++ (others ++ rest)) ∧
        (block sheet items).Takes inside body (others ++ rest) ∧ next.Takes others otherwise rest ∧
        value = .condition (sheet.siteOf start) condition body otherwise := by
  simp (disch := grind) only [elseIf, cutSite_bind, takes_bind (progresses_expression sheet).proceeds,
    takes_bind (progresses_block sheet proceeds).proceeds, takes_bind_pure, takes_expression]
  constructor
  · intro parts
    obtain ⟨condition, written, _, rfl, reads, body, inside, others, rfl, inner, otherwise, tail, rfl⟩ := parts
    rw [List.append_assoc] at reads
    exact ⟨condition, body, otherwise, written, inside, others, rfl, reads, inner, tail, rfl⟩
  · intro parts
    obtain ⟨condition, body, otherwise, written, inside, others, rfl, reads, inner, tail, rfl⟩ := parts
    rw [← List.append_assoc] at reads
    exact ⟨condition, written, _, rfl, reads, body, inside, others, rfl, inner, otherwise, tail, rfl⟩

/-- A function reads up to the end of its head, and then a block or the end of a statement. -/
theorem takes_function {start taken rest : Text} {value : Statement} :
    (function sheet items start).Takes taken value rest ↔
      ∃ header head tail, taken = head ++ tail ∧ fromHeaderEnd none (head ++ (tail ++ rest)) = tail ++ rest ∧
        Header.ofExcerpt sheet.dialect (sheet.excerpt start (tail ++ rest)) = .ok header ∧
        ((tail ++ rest).head? = some '{' ∧
          (∃ body, (block sheet items).Takes tail body rest ∧ value = .function header body) ∨
          (tail ++ rest).head? ≠ some '{' ∧ (terminator sheet).Takes tail () rest ∧ value = .function header []) := by
  have last (finish : Text) (header : Header) : (if finish.head? = some '{' then do
        return .function header (← block sheet items)
      else do terminator sheet; return .function header [] : Reading Fault Statement).Proceeds := by
    split <;> grind
  simp only [function, cutExcerpt_bind, mapError_fault]
  rw [takes_bind proceeds_skipHeader fun _ => proceeds_remaining.bind fun finish =>
    (proceeds_ofExcept _).bind (last finish)]
  simp only [takes_remaining_bind, takes_ofExcept_bind, takes_skipHeader]
  constructor
  · intro parts
    obtain ⟨_, head, tail, rfl, skipped, header, read, ends⟩ := parts
    refine ⟨header, head, tail, rfl, skipped, read, ?_⟩
    split at ends
    next brace => exact .inl ⟨brace, takes_bind_pure.1 ends⟩
    next brace =>
      obtain ⟨_, reads, rfl⟩ := takes_bind_pure.1 ends
      exact .inr ⟨brace, reads, rfl⟩
  · intro parts
    obtain ⟨header, head, tail, rfl, skipped, read, ends⟩ := parts
    refine ⟨(), head, tail, rfl, skipped, header, read, ?_⟩
    obtain ⟨brace, reads⟩ | ⟨brace, reads, rfl⟩ := ends
    · rw [if_pos brace]
      exact takes_bind_pure.2 reads
    · rw [if_neg brace]
      exact takes_bind_pure.2 ⟨(), reads, rfl⟩

theorem takes_conditional {start taken rest : Text} {value : Statement} :
    (conditional sheet items start).Takes taken value rest ↔
      ∃ condition body otherwise written inside others, taken = written ++ (inside ++ others) ∧
        (Expr.Grammar.argument Expr.parser).Takes written condition (inside ++ (others ++ rest)) ∧
        (block sheet items).Takes inside body (others ++ rest) ∧ (follow sheet items).Takes others otherwise rest ∧
        value = .conditional (sheet.excerpt start (inside ++ (others ++ rest))) condition body otherwise := by
  simp (disch := grind) only [conditional_eq, cutExcerpt_bind, takes_bind (progresses_expression sheet).proceeds,
    takes_remaining_bind, takes_bind (progresses_block sheet proceeds).proceeds, takes_bind_pure, takes_expression]
  constructor
  · intro parts
    obtain ⟨condition, written, _, rfl, reads, body, inside, others, rfl, inner, otherwise, tail, rfl⟩ := parts
    rw [List.append_assoc] at reads ⊢
    exact ⟨condition, body, otherwise, written, inside, others, rfl, reads, inner, tail, rfl⟩
  · intro parts
    obtain ⟨condition, body, otherwise, written, inside, others, rfl, reads, inner, tail, rfl⟩ := parts
    rw [← List.append_assoc] at reads
    refine ⟨condition, written, _, rfl, reads, body, inside, others, rfl, inner, otherwise, tail, ?_⟩
    rw [List.append_assoc]

/-- Either no branch follows, and nothing is taken, or one that is marked by its words. -/
theorem takes_follow {taken rest : Text} {value : Otherwise} :
    (follow sheet items).Takes taken value rest ↔
      value = .nothing ∧ taken = [] ∧ (Parser.keyword "@else").Refuses (skip rest) ∨
        ∃ gap between more, taken = gap ++ ("@else".toList ++ (between ++ more)) ∧
          skip (gap ++ ("@else".toList ++ (between ++ (more ++ rest)))) =
            "@else".toList ++ (between ++ (more ++ rest)) ∧
          Stops Name.continues (between ++ (more ++ rest)) ∧ skip (between ++ (more ++ rest)) = more ++ rest ∧
          ((Parser.keyword "if").Refuses (more ++ rest) ∧ (lastBlock sheet items).Takes more value rest ∨
            ∃ after, more = "if".toList ++ after ∧ Stops Name.continues (after ++ rest) ∧
              (elseIf sheet items (follow sheet items) (more ++ rest)).Takes after value rest) := by
  constructor
  · intro reads
    rw [Takes, follow_eq proceeds] at reads
    obtain refuses | ⟨afterElse, word, -, branch⟩ := otherwiseStep_cases (taken ++ rest)
    · rw [otherwiseStep_nothing refuses] at reads
      simp only [Except.ok.injEq, Prod.mk.injEq] at reads
      obtain ⟨rfl, same⟩ := reads
      obtain rfl := List.append_left_eq_self.1 same
      exact .inl ⟨rfl, rfl, refuses⟩
    · obtain refuses | ⟨afterIf, more, -⟩ := branch
      · rw [otherwiseStep_else word refuses] at reads
        obtain ⟨more, same, takes⟩ := (proceeds_lastBlock sheet proceeds).takes reads
        obtain ⟨gap, between, whole, skipped, stops, skipped'⟩ := exists_gaps word same
        rw [same] at refuses
        exact .inr ⟨gap, between, more, whole, skipped, stops, skipped', .inl ⟨refuses, takes⟩⟩
      · rw [otherwiseStep_if word more] at reads
        obtain ⟨after, same, takes⟩ := (proceeds_elseIf sheet proceeds (proceeds_follow proceeds) _).takes reads
        obtain ⟨marked, ends⟩ := Parser.keyword_eq_ok.1 more
        rw [same, ← List.append_assoc] at marked
        rw [same] at ends
        obtain ⟨gap, between, whole, skipped, stops, skipped'⟩ := exists_gaps word marked
        rw [marked] at takes
        exact .inr ⟨gap, between, _, whole, skipped, stops, skipped', .inr ⟨after, rfl, ends, takes⟩⟩
  · intro parts
    rw [Takes, follow_eq proceeds]
    obtain ⟨rfl, rfl, refuses⟩ | ⟨gap, between, more, same, skipped, stops, skipped', branch⟩ := parts
    · exact otherwiseStep_nothing refuses
    · have word : Parser.keyword "@else" (skip (taken ++ rest)) = .ok ((), between ++ (more ++ rest)) := by
        rw [same, List.append_assoc, List.append_assoc, List.append_assoc, skipped]
        exact Parser.keyword_eq_ok.2 ⟨rfl, stops⟩
      obtain ⟨refuses, reads⟩ | ⟨after, rfl, ends, reads⟩ := branch
      · rw [← skipped'] at refuses
        rw [otherwiseStep_else word refuses, skipped']
        exact reads
      · have ifWord : Parser.keyword "if" (skip (between ++ ("if".toList ++ after ++ rest))) =
            .ok ((), after ++ rest) := by
          rw [skipped', List.append_assoc]
          exact Parser.keyword_eq_ok.2 ⟨rfl, ends⟩
        rw [otherwiseStep_if word ifWord, skipped']
        exact reads

theorem takes_statement {taken rest : Text} {value : Statement} :
    (statement sheet items).Takes taken value rest ↔
      (∃ word kind written, taken = word ++ written ∧ (word, kind) ∈ directives ∧
        Stops Name.continues (written ++ rest) ∧
        (directed sheet items (word ++ (written ++ rest)) kind).Takes written value rest) ∨
      taken.head? = some sheet.dialect.sigil ∧ (assignment sheet).Takes taken value rest := by
  constructor
  · intro reads
    obtain refuses | ⟨kind, afterWord, word⟩ := refuses_or_reads directive (taken ++ rest)
    · have nonempty := (progresses_statement proceeds).takes_ne_nil reads
      have same : (taken ++ rest).head? = taken.head? := List.head?_append_of_ne_nil _ nonempty
      by_cases head : (taken ++ rest).head? = some sheet.dialect.sigil
      · rw [Takes, statement_of_sigil refuses head] at reads
        exact .inr ⟨same ▸ head, reads⟩
      · exact absurd (statement_refuses refuses head) (not_refuses reads)
    · rw [Takes, statement_of_directive word] at reads
      obtain ⟨written, rfl, takes⟩ := (proceeds_directed proceeds _ kind).takes reads
      obtain ⟨word, same, here⟩ := progresses_directive.proceeds.takes word
      obtain ⟨member, stops⟩ := takes_directive.1 here
      rw [← List.append_assoc] at same
      have whole := List.append_cancel_right same
      refine .inl ⟨word, kind, written, whole, member, stops, ?_⟩
      rw [same, List.append_assoc] at takes
      exact takes
  · intro parts
    obtain ⟨word, kind, written, rfl, member, stops, reads⟩ | ⟨head, reads⟩ := parts
    · have here : directive (word ++ (written ++ rest)) = .ok (kind, written ++ rest) :=
        takes_directive.2 ⟨member, stops⟩
      rw [Takes, List.append_assoc, statement_of_directive here]
      exact reads
    · have nonempty := (progresses_assignment sheet).takes_ne_nil reads
      have same : (taken ++ rest).head? = some sheet.dialect.sigil :=
        (List.head?_append_of_ne_nil _ nonempty).trans head
      have refuses : directive.Refuses (taken ++ rest) := by
        apply refuses_directive_of_head
        rw [same]
        cases sheet.dialect <;> decide
      rw [Takes, statement_of_sigil refuses same]
      exact reads

end

/-- Items begin with trivia, after which there is nothing, a semicolon or a statement. -/
theorem takes_items {sheet : Sheet} {taken rest : Text} {body : List Statement} :
    (items sheet).Takes taken body rest ↔
      ∃ gap more, taken = gap ++ more ∧ skip (gap ++ (more ++ rest)) = more ++ rest ∧
        (more = [] ∧ Finishes rest ∧ body = [] ∨
          (∃ tail, more = ';' :: tail ∧ (items sheet).Takes tail body rest) ∨
          ∃ first others written tail, more = written ++ tail ∧ more.head? ≠ some '}' ∧ more.head? ≠ some ';' ∧
            (statement sheet (items sheet)).Takes written first (tail ++ rest) ∧ (items sheet).Takes tail others rest ∧
            body = first :: others) := by
  have proceeds := proceeds_items sheet
  have statements : (statement sheet (items sheet)).Progresses := progresses_statement proceeds
  have last (first : Statement) : (do return first :: (← items sheet) : Reading Fault (List Statement)).Proceeds :=
    proceeds.bind fun _ => proceeds_pure _
  constructor
  · intro reads
    rw [Takes, items_eq] at reads
    obtain ends | ⟨left, same, -⟩ | ⟨nonempty, brace, semicolon⟩ := items_cases (taken ++ rest)
    · rw [itemsStep_end rfl ends] at reads
      simp only [Except.ok.injEq, Prod.mk.injEq] at reads
      obtain ⟨rfl, same⟩ := reads
      have nothing : skip (taken ++ rest) = [] ++ rest := same
      obtain ⟨gap, whole, skipped⟩ := exists_gap nothing
      rw [same] at ends
      exact ⟨gap, [], whole, skipped, .inl ⟨rfl, ends, rfl⟩⟩
    · rw [itemsStep_semicolon same] at reads
      obtain ⟨tail, rfl, takes⟩ := proceeds.takes reads
      rw [← List.cons_append] at same
      obtain ⟨gap, whole, skipped⟩ := exists_gap same
      exact ⟨gap, ';' :: tail, whole, skipped, .inr (.inl ⟨tail, rfl, takes⟩)⟩
    · rw [itemsStep_statement rfl nonempty brace semicolon] at reads
      obtain ⟨more, same, takes⟩ := (statements.proceeds.bind last).takes reads
      obtain ⟨first, written, tail, rfl, head, inner⟩ := (takes_bind statements.proceeds last).1 takes
      obtain ⟨others, later, rfl⟩ := takes_bind_pure.1 inner
      have visible : (written ++ tail ++ rest).head? = (written ++ tail).head? :=
        List.head?_append_of_ne_nil _ (List.append_ne_nil_of_left_ne_nil (statements.takes_ne_nil head) _)
      obtain ⟨gap, whole, skipped⟩ := exists_gap same
      rw [same, visible] at brace semicolon
      exact ⟨gap, _, whole, skipped, .inr (.inr ⟨first, others, written, tail, rfl, brace, semicolon, head, later, rfl⟩)⟩
  · intro parts
    obtain ⟨gap, more, rfl, skipped, branch⟩ := parts
    rw [Takes, items_eq, List.append_assoc]
    obtain ⟨rfl, finishes, rfl⟩ | ⟨tail, rfl, later⟩ | ⟨first, others, written, tail, rfl, brace, semicolon, head,
      later, rfl⟩ :=
      branch
    · exact itemsStep_end skipped finishes
    · rw [itemsStep_semicolon skipped]
      exact later
    · have nonempty := List.append_ne_nil_of_left_ne_nil (statements.takes_ne_nil head) tail
      have visible : (written ++ tail ++ rest).head? = (written ++ tail).head? := List.head?_append_of_ne_nil _ nonempty
      rw [itemsStep_statement skipped (List.append_ne_nil_of_left_ne_nil nonempty rest) (visible ▸ brace)
        (visible ▸ semicolon), List.append_assoc]
      exact bind_eq_ok.2 ⟨first, tail ++ rest, head, bind_eq_ok.2 ⟨others, rest, later, rfl⟩⟩

/-- A source is accepted when it is taken as a whole. -/
theorem statements_eq_ok {sheet : Sheet} {statements : List Statement} :
    sheet.statements = .ok statements ↔ (items sheet).Takes sheet.source statements [] := by
  rw [Takes, List.append_nil, statements_of_items]
  rcases items sheet sheet.source with cause | ⟨found, rest⟩
  · simp
  · cases rest <;> simp

end StyleScript.Statement.Grammar
