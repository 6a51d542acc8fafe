import StyleScript.Proofs.DraftReading
import StyleScript.Proofs.Placement

/-! More text at the end of a source. Trivia, expressions and branches are looked for past the end of
what is taken. A statement is read alike before more text as soon as something stands after it that
no later text can change; inside braces that is always so. -/

namespace StyleScript

theorem Text.before_append_append (whole rest more : Text) :
    Text.before (whole ++ more) (rest ++ more) = Text.before whole rest := by
  rw [Text.before, Text.before, List.length_append, List.length_append, Nat.add_sub_add_right,
    List.take_append_of_le_length (Nat.sub_le _ _)]

/-- The same source with more text after it. -/
def Sheet.extended (sheet : Sheet) (more : Text) : Sheet := { sheet with source := sheet.source ++ more }

namespace Sheet

theorem siteOf_extended (sheet : Sheet) (more rest : Text) :
    (sheet.extended more).siteOf (rest ++ more) = sheet.siteOf rest := by
  rw [siteOf, siteOf, extended, Text.before_append_append]

theorem excerpt_extended (sheet : Sheet) (more start finish : Text) :
    (sheet.extended more).excerpt (start ++ more) (finish ++ more) = sheet.excerpt start finish := by
  rw [excerpt, excerpt, Text.before_append_append, siteOf_extended]

end Sheet

namespace Trivia
open Reading
open Text (Stops isBlank)

theorem skip_skip (text : Text) : skip (skip text) = skip text := by
  obtain ⟨_, -, -, refuses⟩ := exists_skipped text
  exact skip_of_refuses refuses

theorem IsComment.extended {comment rest : Text} (isComment : IsComment comment rest) (nonempty : rest ≠ [])
    (more : Text) : IsComment comment (rest ++ more) := by
  cases isComment with
  | line inside ends =>
    exact .line inside ((Text.stops_congr (List.head?_append_of_ne_nil rest nonempty).symm).1 ends)
  | closed unclosed => exact .closed unclosed

theorem Skipped.extended {gap rest : Text} (skipped : Skipped rest gap) (nonempty : rest ≠ []) (more : Text) :
    Skipped (rest ++ more) gap := by
  induction skipped with
  | nil => exact .nil
  | blank isBlank _ ih => exact .blank isBlank ih
  | comment isComment _ ih =>
    have later := isComment.extended (List.append_ne_nil_of_right_ne_nil _ nonempty) more
    rw [List.append_assoc] at later
    exact .comment later ih

/-- The text begins with a character that does not begin a comment, whatever comes later. -/
def Solid (text : Text) : Prop := ∃ c, text.head? = some c ∧ c ≠ '/'

theorem Solid.nonempty {text : Text} (solid : Solid text) : text ≠ [] := by
  rintro rfl
  obtain ⟨c, head, -⟩ := solid
  cases head

/-- What comes after trivia still does before more text. -/
theorem skip_extended {text rest : Text} (same : skip text = rest) (solid : Solid rest) (more : Text) :
    skip (text ++ more) = rest ++ more := by
  obtain ⟨gap, whole, skipped, refuses⟩ := exists_skipped text
  rw [same] at whole skipped refuses
  have later : skip (gap ++ (rest ++ more)) = skip (rest ++ more) := (skipped.extended solid.nonempty more).skip_append
  obtain ⟨c, head, other⟩ := solid
  obtain ⟨tail, rfl⟩ := List.head?_eq_some_iff.1 head
  have blank : isBlank c = false := Text.stops_cons.1 (Parser.refuses_blanks1.1 (Parser.refuses_orElse.1 refuses).1)
  have visible : (isBlank c || c == '/') = false := by simp [blank, other]
  rw [whole, List.append_assoc, later, List.cons_append, skip_cons visible]

theorem nonempty_of_skip {text : Text} (solid : Solid (skip text)) : text ≠ [] := by
  rintro rfl
  rw [skip_nil] at solid
  exact solid.nonempty rfl

/-- After the trivia comes a mark at which an expression ends. -/
def Marked (text : Text) : Prop := ∃ c ∈ [';', '{', '}'], (skip text).head? = some c

theorem Marked.solid {text : Text} (marked : Marked text) : Solid (skip text) := by
  obtain ⟨c, mark, head⟩ := marked
  refine ⟨c, head, ?_⟩
  rintro rfl
  exact absurd mark (by decide)

theorem Marked.extended {text : Text} (marked : Marked text) (more : Text) : Marked (text ++ more) := by
  have same := skip_extended rfl marked.solid more
  have nonempty := marked.solid.nonempty
  obtain ⟨c, mark, head⟩ := marked
  refine ⟨c, mark, ?_⟩
  rw [same, List.head?_append_of_ne_nil _ nonempty, head]

theorem Marked.closes {text : Text} (marked : Marked text) : Expr.Closes text := by
  obtain ⟨c, mark, head⟩ := marked
  obtain ⟨gap, whole, skipped, -⟩ := exists_skipped text
  obtain ⟨rest, same⟩ := List.head?_eq_some_iff.1 head
  rw [same] at whole skipped
  rw [whole]
  clear head same whole
  induction skipped with
  | nil =>
    have visible : isBlank c = false := by
      have outside : [';', '{', '}'].any isBlank = false := by decide
      exact Text.eq_false_of_any outside mark
    refine Expr.closes_of_head (List.mem_append_left [')', ','] mark) ?_
    rw [List.nil_append, Text.dropBlanks_cons_of_not_blank visible]
    rfl
  | blank isBlank _ ih =>
    rw [Expr.Closes, List.cons_append, Text.dropBlanks_cons_of_blank isBlank]
    exact ih
  | comment isComment _ _ =>
    cases isComment with
    | line => exact .inr (.inr (.inl ⟨_, rfl⟩))
    | closed => exact .inr (.inr (.inr ⟨_, rfl⟩))

end Trivia

namespace Expr.Grammar
open Reading Text

section
variable {taken rest next : Text}

theorem argument_of_follows {value : Text} (takes : (argument parser).Takes taken value rest)
    (follows : ∀ bare, Follows bare rest next) : (argument parser).Takes taken value next := by
  obtain ⟨gap, expr, rfl, blank, stops, reads⟩ := (takes_argument progresses_expr.proceeds).1 takes
  refine (takes_argument progresses_expr.proceeds).2 ⟨gap, expr, rfl, blank, ?_, takes_of_follows reads (follows _)⟩
  exact (stops_congr (head?_append_congr (progresses_expr.takes_ne_nil reads) _ _)).1 stops

/-- The mark of a default is an operand to a bare `not`, so none stands before it. -/
theorem follows_marked_default {gap : Text} (blank : ∀ c ∈ gap, isBlank c = true)
    (stops : Stops Name.continues rest) (bare : Prop) :
    Follows bare (gap ++ ("!default".toList ++ rest)) (gap ++ ("!default".toList ++ next)) := by
  have word : Follows False [] (gap ++ ("!default".toList ++ next)) := follows_default id blank
  refine ⟨.inl ?_, word.opening, fun _ refuses => ?_, fun layer _ => word.layers layer ?_⟩
  · rw [← List.append_assoc, ← List.append_assoc]
    exact head?_append_congr (List.append_ne_nil_of_right_ne_nil gap (by decide)) _ _
  · have reference : reference.Takes "!default".toList (.reference "default".toList) rest :=
      takes_reference.2 ⟨'!', _, .inr rfl, rfl, by decide, rfl, stops⟩
    have token := (takes_token progresses_expr.proceeds).2 (.inr (.inr (.inl reference)))
    have operand : (unary parser).Takes "!default".toList (.reference "default".toList) rest :=
      unary_of_token_head token (by decide)
    have same : dropBlanks (gap ++ ("!default".toList ++ rest)) = "!default".toList ++ rest :=
      dropBlanks_append blank (stops_cons.2 (by decide))
    rw [Refuses, ← unindented_unary progresses_expr.proceeds, same] at refuses
    exact absurd refuses (not_refuses operand)
  · exact layer.ends_of_head (stops_nil _)

end
end Expr.Grammar

namespace Statement.Grammar
open Reading Trivia
open Text (Stops)

section
variable {sheet : Sheet} {taken rest : Text} (more : Text)

theorem stops_extended {test : Char → Bool} (nonempty : rest ≠ []) (stops : Stops test rest) : Stops test (rest ++ more) :=
  (Text.stops_congr (List.head?_append_of_ne_nil rest nonempty).symm).1 stops

theorem argument_extended {value : Text} (marked : Marked rest)
    (takes : (Expr.Grammar.argument Expr.parser).Takes taken value rest) :
    (Expr.Grammar.argument Expr.parser).Takes taken value (rest ++ more) :=
  Expr.Grammar.argument_of_follows takes fun _ => (marked.extended more).closes.follows _ _

theorem marked_of_terminator (nonempty : rest ≠ []) (takes : (terminator sheet).Takes taken () rest) :
    Marked (taken ++ rest) := by
  obtain ⟨finishes, skipped⟩ | ⟨gap, rfl, skipped⟩ := takes_terminator.1 takes
  · obtain ⟨tail, rfl⟩ := List.head?_eq_some_iff.1 (finishes.resolve_left nonempty)
    exact ⟨'}', by decide, by rw [skipped]; rfl⟩
  · rw [List.append_assoc]
    exact ⟨';', by decide, congrArg List.head? skipped⟩

theorem terminator_extended (nonempty : rest ≠ []) (takes : (terminator sheet).Takes taken () rest) :
    (terminator (sheet.extended more)).Takes taken () (rest ++ more) := by
  obtain ⟨finishes, skipped⟩ | ⟨gap, rfl, skipped⟩ := takes_terminator.1 takes
  · obtain ⟨tail, rfl⟩ := List.head?_eq_some_iff.1 (finishes.resolve_left nonempty)
    refine takes_terminator.2 (.inl ⟨.inr rfl, ?_⟩)
    rw [← List.append_assoc]
    exact skip_extended skipped ⟨'}', rfl, by decide⟩ more
  · refine takes_terminator.2 (.inr ⟨gap, rfl, ?_⟩)
    have later := skip_extended skipped ⟨';', rfl, by decide⟩ more
    rwa [List.append_assoc] at later

theorem single_extended {build : Excerpt → Text → Statement} {start : Text} {value : Statement} (nonempty : rest ≠ [])
    (takes : (single sheet build start).Takes taken value rest) :
    (single (sheet.extended more) build (start ++ more)).Takes taken value (rest ++ more) := by
  obtain ⟨text, written, trailing, rfl, reads, ends, rfl⟩ := takes_single.1 takes
  refine takes_single.2 ⟨text, written, trailing, rfl, ?_, terminator_extended more nonempty ends, ?_⟩
  · rw [← List.append_assoc]
    exact argument_extended more (marked_of_terminator nonempty ends) reads
  · rw [← List.append_assoc, Sheet.excerpt_extended]

/-- After an expression comes what ends the statement, or first the mark of a default. -/
theorem default_extended {text mark written : Text} {isDefault : Bool} (marked : Marked rest)
    (reads : (Expr.Grammar.argument Expr.parser).Takes written text (mark ++ rest))
    (marks : Grammar.isDefault.Takes mark isDefault rest) :
    (Expr.Grammar.argument Expr.parser).Takes written text (mark ++ (rest ++ more)) ∧
      Grammar.isDefault.Takes mark isDefault (rest ++ more) := by
  obtain ⟨gap, rfl, rfl, blank, stops⟩ | ⟨rfl, rfl, -⟩ := takes_isDefault.1 marks
  · constructor
    · rw [List.append_assoc] at reads ⊢
      exact Expr.Grammar.argument_of_follows reads (Expr.Grammar.follows_marked_default blank stops)
    · exact takes_isDefault.2 (.inl ⟨gap, rfl, rfl, blank, stops_extended more (nonempty_of_skip marked.solid) stops⟩)
  · refine ⟨argument_extended more marked reads, takes_isDefault.2 (.inr ⟨rfl, rfl, ?_⟩)⟩
    obtain empty | ⟨c, tail, same, mark⟩ := (marked.extended more).closes.cases
    · rw [empty]
      exact Parser.refuses_keyword_nil (by decide)
    · rw [same]
      apply Parser.refuses_keyword_of_head _ (by decide)
      rintro ⟨⟩
      obtain mark | ⟨slash, -⟩ := mark
      · exact absurd mark (by decide)
      · exact absurd slash (by decide)

theorem assignment_extended {value : Statement} (nonempty : rest ≠ [])
    (takes : (assignment sheet).Takes taken value rest) :
    (assignment (sheet.extended more)).Takes taken value (rest ++ more) := by
  obtain ⟨name, text, isDefault, head, written, mark, trailing, rfl, target, reads, marks, ends, rfl⟩ :=
    takes_assignment.1 takes
  have marked := marked_of_terminator nonempty ends
  obtain ⟨given, later⟩ := default_extended more marked reads marks
  rw [List.append_assoc] at given later
  refine takes_assignment.2 ⟨name, text, isDefault, head, written, mark, trailing, rfl,
    takes_target.2 (takes_target.1 target), given, later, terminator_extended more nonempty ends, ?_⟩
  rw [← List.append_assoc trailing, ← List.append_assoc _ rest, Sheet.excerpt_extended]

/-- What comes after the trivia is there to stay, and no later text makes it a branch. -/
structure Settled (text : Text) : Prop where
  solid : Solid (skip text)
  refuses : ∀ more, (Parser.keyword "@else").Refuses (skip text ++ more)

theorem settled_of_head {text : Text} {c : Char} (head : (skip text).head? = some c) (mark : c ∈ ['}', ';', '$', '!']) :
    Settled text := by
  have outside : ['}', ';', '$', '!'].any (fun c => c == '/' || c == '@') = false := by decide
  have other := Text.eq_false_of_any outside mark
  simp only [Bool.or_eq_false_iff, beq_eq_false_iff_ne] at other
  obtain ⟨slash, word⟩ := other
  obtain ⟨rest, same⟩ := List.head?_eq_some_iff.1 head
  refine ⟨⟨c, head, slash⟩, fun more => ?_⟩
  rw [same]
  exact Parser.refuses_keyword_of_head (fun same => word (Option.some.inj same).symm) (by decide)

/-- The words of directives and that of a branch are none the beginning of the other. -/
theorem settled_of_directive {text word : Text} {kind : Directive} (member : (word, kind) ∈ directives)
    (same : skip text = word ++ rest) : Settled text := by
  have apart : ∀ entry ∈ directives, ¬ "@else".toList <+: entry.1 ∧ ¬ entry.1 <+: "@else".toList := by
    simp only [directives, List.forall_mem_cons]
    decide
  constructor
  · obtain ⟨tail, rfl⟩ := head_of_directive member
    exact ⟨'@', by rw [same]; rfl, by decide⟩
  · intro more
    rw [same, List.append_assoc, Parser.refuses_keyword]
    intro left whole _
    obtain one | other := List.prefix_or_prefix_of_prefix ⟨left, whole.symm⟩ (List.prefix_append word (rest ++ more))
    · exact (apart _ member).1 one
    · exact (apart _ member).2 other

theorem settled_of_statement {text : Text} {value : Statement} (same : skip text = taken ++ rest)
    (takes : (statement sheet (items sheet)).Takes taken value rest) : Settled text := by
  obtain ⟨word, kind, written, rfl, member, -⟩ | ⟨head, -⟩ := (takes_statement (proceeds_items sheet)).1 takes
  · rw [List.append_assoc] at same
    exact settled_of_directive member same
  · obtain ⟨tail, rfl⟩ := List.head?_eq_some_iff.1 head
    apply settled_of_head (congrArg List.head? same)
    cases sheet.dialect <;> decide

/-- More items are there to stay, unless there is only trivia left. -/
theorem settled_of_items {body : List Statement} (takes : (items sheet).Takes taken body rest)
    (ahead : skip (taken ++ rest) ≠ []) : Settled (taken ++ rest) := by
  obtain ⟨gap, more, rfl, skipped, branch⟩ := takes_items.1 takes
  rw [← List.append_assoc] at skipped
  rw [skipped] at ahead
  obtain ⟨rfl, finishes, -⟩ | ⟨tail, rfl, -⟩ | ⟨first, _, written, tail, rfl, -, -, head, -⟩ := branch
  · exact settled_of_head ((congrArg List.head? skipped).trans (finishes.resolve_left ahead)) (by decide)
  · exact settled_of_head (congrArg List.head? skipped) (by decide)
  · rw [List.append_assoc written] at skipped
    exact settled_of_statement skipped head

theorem ahead_of_items {body : List Statement} (takes : (items sheet).Takes taken body rest) (nonempty : rest ≠ []) :
    skip (taken ++ rest) ≠ [] := by
  obtain ⟨gap, more, rfl, skipped, -⟩ := takes_items.1 takes
  rw [List.append_assoc, skipped]
  exact List.append_ne_nil_of_right_ne_nil more nonempty

/-- Items inside braces are read alike before more text. -/
def Lasting (sheet : Sheet) (more taken : Text) : Prop :=
  ∀ rest body, rest.head? = some '}' → (items sheet).Takes taken body rest →
    (items (sheet.extended more)).Takes taken body (rest ++ more)

variable (sheet) in
theorem marked_of_block {body : List Statement} (takes : (block sheet (items sheet)).Takes taken body rest) :
    Marked (taken ++ rest) := by
  obtain ⟨gap, inside, rfl, skipped, -⟩ := (takes_block (proceeds_items sheet)).1 takes
  refine ⟨'{', by decide, ?_⟩
  rw [List.append_assoc, List.cons_append, List.append_assoc]
  exact congrArg List.head? skipped

theorem brace_of_block {body : List Statement} (takes : (block sheet (items sheet)).Takes taken body rest) :
    ['}'] <:+ taken := by
  obtain ⟨gap, inside, rfl, -, -⟩ := (takes_block (proceeds_items sheet)).1 takes
  exact ⟨gap ++ '{' :: inside, by simp⟩

theorem brace_of_follow {value : Otherwise} (takes : (follow sheet (items sheet)).Takes taken value rest) :
    taken = [] ∨ ['}'] <:+ taken := by
  have proceeds := proceeds_items sheet
  induction size : taken.length using Nat.strongRecOn generalizing taken value with
  | ind size ih =>
    subst size
    obtain ⟨-, rfl, -⟩ | ⟨gap, between, part, rfl, -, -, -, branch⟩ := (takes_follow proceeds).1 takes
    · exact .inl rfl
    · have last : ['}'] <:+ part := by
        obtain ⟨-, last⟩ | ⟨after, rfl, -, branch⟩ := branch
        · obtain ⟨body, inside, rfl⟩ := takes_lastBlock.1 last
          exact brace_of_block inside
        · obtain ⟨_, _, _, written, inside, others, rfl, -, blocks, branches, rfl⟩ :=
            (takes_elseIf proceeds (proceeds_follow proceeds)).1 branch
          apply List.suffix_append_of_suffix
          apply List.suffix_append_of_suffix
          obtain rfl | last := ih others.length (by simp; omega) branches rfl
          · rw [List.append_nil]
            exact brace_of_block blocks
          · exact List.suffix_append_of_suffix last
      exact .inr (List.suffix_append_of_suffix (List.suffix_append_of_suffix (List.suffix_append_of_suffix last)))

theorem brace_of_conditional {start : Text} {value : Statement}
    (takes : (conditional sheet (items sheet) start).Takes taken value rest) : ['}'] <:+ taken := by
  obtain ⟨_, _, _, written, inside, others, rfl, -, blocks, branches, -⟩ := (takes_conditional (proceeds_items sheet)).1 takes
  apply List.suffix_append_of_suffix
  obtain rfl | last := brace_of_follow branches
  · rw [List.append_nil]
    exact brace_of_block blocks
  · exact List.suffix_append_of_suffix last

theorem fromHeaderEnd_extended {quote : Option Char} {text : Text} (found : fromHeaderEnd quote text ≠ []) :
    fromHeaderEnd quote (text ++ more) = fromHeaderEnd quote text ++ more := by
  induction text generalizing quote with
  | nil => exact absurd rfl found
  | cons c text ih =>
    rw [fromHeaderEnd] at found
    rw [List.cons_append, fromHeaderEnd, fromHeaderEnd]
    split at found
    next mark => rw [if_pos mark, if_pos mark, List.cons_append]
    next other => rw [if_neg other, if_neg other, ih found]

section
variable {more} (lasting : ∀ inside, inside.length < taken.length → Lasting sheet more inside)
include lasting

theorem block_extended {body : List Statement} (takes : (block sheet (items sheet)).Takes taken body rest) :
    (block (sheet.extended more) (items (sheet.extended more))).Takes taken body (rest ++ more) := by
  obtain ⟨gap, inside, rfl, skipped, reads⟩ := (takes_block (proceeds_items sheet)).1 takes
  have within := lasting inside (by simp; omega) ('}' :: rest) body rfl reads
  refine (takes_block (proceeds_items _)).2 ⟨gap, inside, rfl, ?_, within⟩
  simpa using skip_extended skipped ⟨'{', rfl, by decide⟩ more

/-- By induction on the text, since every later branch comes after an `@else`. -/
theorem follow_extended {value : Otherwise} (settled : Settled rest)
    (takes : (follow sheet (items sheet)).Takes taken value rest) :
    (follow (sheet.extended more) (items (sheet.extended more))).Takes taken value (rest ++ more) := by
  have proceeds := proceeds_items sheet
  have proceeds' := proceeds_items (sheet.extended more)
  induction size : taken.length using Nat.strongRecOn generalizing taken value with
  | ind size ih =>
    subst size
    obtain ⟨rfl, rfl, -⟩ | ⟨gap, between, part, rfl, skipped, stops, skipped', branch⟩ := (takes_follow proceeds).1 takes
    · refine (takes_follow proceeds').2 (.inl ⟨rfl, rfl, ?_⟩)
      rw [skip_extended rfl settled.solid]
      exact settled.refuses more
    · have nonempty := nonempty_of_skip settled.solid
      have word := skip_extended skipped ⟨'@', rfl, by decide⟩ more
      have ends := stops_extended more (by simp [nonempty]) stops
      obtain ⟨refuses, last⟩ | ⟨after, rfl, stops', branch⟩ := branch
      · obtain ⟨body, inside, rfl⟩ := takes_lastBlock.1 last
        obtain ⟨c, mark, head⟩ := marked_of_block sheet inside
        rw [← skipped', skip_skip, skipped'] at head
        have outside : [';', '{', '}'].any (fun c => c == '/' || c == 'i') = false := by decide
        have other := Text.eq_false_of_any outside mark
        simp only [Bool.or_eq_false_iff, beq_eq_false_iff_ne] at other
        obtain ⟨slash, letter⟩ := other
        obtain ⟨tail, same⟩ := List.head?_eq_some_iff.1 head
        have before := skip_extended skipped' ⟨c, head, slash⟩ more
        refine (takes_follow proceeds').2 (.inr ⟨gap, between, part, rfl, by simpa using word, by simpa using ends,
          by simpa using before, .inl ⟨?_, ?_⟩⟩)
        · rw [← List.append_assoc, same]
          exact Parser.refuses_keyword_of_head (fun same => letter (Option.some.inj same).symm) (by decide)
        · exact takes_lastBlock.2 ⟨body, block_extended (fun part short => lasting part (by simp; omega)) inside, rfl⟩
      · obtain ⟨condition, body, otherwise, written, inside, others, rfl, reads, blocks, branches, rfl⟩ :=
          (takes_elseIf proceeds (proceeds_follow proceeds)).1 branch
        have given := argument_extended more (marked_of_block sheet blocks) reads
        have bodies := block_extended (fun part short => lasting part (by simp; omega)) blocks
        have later := ih others.length (by simp; omega) (fun part short => lasting part (by simp; omega)) branches rfl
        have before := skip_extended skipped' ⟨'i', rfl, by decide⟩ more
        refine (takes_follow proceeds').2 (.inr ⟨gap, between, _, rfl, by simpa using word, by simpa using ends,
          by simpa using before, .inr ⟨_, rfl, ?_, ?_⟩⟩)
        · simpa using stops_extended more (by simp [nonempty]) stops'
        · refine (takes_elseIf proceeds' (proceeds_follow proceeds')).2
            ⟨condition, body, otherwise, written, inside, others, rfl, ?_, ?_, later, ?_⟩
          · simpa using given
          · simpa using bodies
          · rw [← List.append_assoc _ rest more, Sheet.siteOf_extended]

theorem conditional_extended {start : Text} {value : Statement} (settled : Settled rest)
    (takes : (conditional sheet (items sheet) start).Takes taken value rest) :
    (conditional (sheet.extended more) (items (sheet.extended more)) (start ++ more)).Takes taken value
      (rest ++ more) := by
  obtain ⟨condition, body, otherwise, written, inside, others, rfl, reads, blocks, branches, rfl⟩ :=
    (takes_conditional (proceeds_items sheet)).1 takes
  have given := argument_extended more (marked_of_block sheet blocks) reads
  have bodies := block_extended (fun part short => lasting part (by simp; omega)) blocks
  have later := follow_extended (fun part short => lasting part (by simp; omega)) settled branches
  refine (takes_conditional (proceeds_items _)).2
    ⟨condition, body, otherwise, written, inside, others, rfl, ?_, ?_, later, ?_⟩
  · simpa using given
  · simpa using bodies
  · rw [← List.append_assoc others, ← List.append_assoc inside (others ++ rest), Sheet.excerpt_extended]

theorem function_extended {start : Text} {value : Statement} (nonempty : rest ≠ [])
    (takes : (function sheet (items sheet) start).Takes taken value rest) :
    (function (sheet.extended more) (items (sheet.extended more)) (start ++ more)).Takes taken value (rest ++ more) := by
  obtain ⟨header, head, tail, rfl, scanned, read, ends⟩ := (takes_function (proceeds_items sheet)).1 takes
  have left : tail ++ rest ≠ [] := List.append_ne_nil_of_right_ne_nil tail nonempty
  have scan := fromHeaderEnd_extended more (scanned.symm ▸ left)
  have same : (tail ++ (rest ++ more)).head? = (tail ++ rest).head? := by
    rw [← List.append_assoc]
    exact List.head?_append_of_ne_nil _ left
  refine (takes_function (proceeds_items _)).2 ⟨header, head, tail, rfl, ?_, ?_, ?_⟩
  · rw [scanned] at scan
    simpa using scan
  · rw [← List.append_assoc, Sheet.excerpt_extended]
    exact read
  · rw [same]
    obtain ⟨brace, body, inside, rfl⟩ | ⟨brace, terminates, rfl⟩ := ends
    · exact .inl ⟨brace, body, block_extended (fun part short => lasting part (by simp; omega)) inside, rfl⟩
    · exact .inr ⟨brace, terminator_extended more nonempty terminates, rfl⟩

/-- Only what ends in a block looks at what comes next. -/
theorem statement_extended {value : Statement} (nonempty : rest ≠ []) (settled : ['}'] <:+ taken → Settled rest)
    (takes : (statement sheet (items sheet)).Takes taken value rest) :
    (statement (sheet.extended more) (items (sheet.extended more))).Takes taken value (rest ++ more) := by
  obtain ⟨word, kind, written, rfl, member, stops, reads⟩ | ⟨head, reads⟩ :=
    (takes_statement (proceeds_items sheet)).1 takes
  · refine (takes_statement (proceeds_items _)).2 (.inl ⟨word, kind, written, rfl, member, ?_, ?_⟩)
    · simpa using stops_extended more (List.append_ne_nil_of_right_ne_nil written nonempty) stops
    · rw [← List.append_assoc written, ← List.append_assoc word]
      cases kind with
      | function => exact function_extended (fun part short => lasting part (by simp; omega)) nonempty reads
      | returns => exact single_extended more nonempty reads
      | conditional =>
        have last : ['}'] <:+ word ++ written := List.suffix_append_of_suffix (brace_of_conditional reads)
        exact conditional_extended (fun part short => lasting part (by simp; omega)) (settled last) reads
      | print severity =>
        have printed : (single sheet (.print · severity ·) _).Takes written value rest := reads
        exact single_extended more nonempty printed
  · exact (takes_statement (proceeds_items _)).2 (.inr ⟨head, assignment_extended more nonempty reads⟩)

end

/-- By induction on the text, since what is inside braces is shorter than the text around it. -/
theorem lasting_items (sheet : Sheet) (more taken : Text) : Lasting sheet more taken := by
  induction size : taken.length using Nat.strongRecOn generalizing taken with
  | ind size ih =>
    subst size
    intro rest body brace takes
    have nonempty : rest ≠ [] := by
      rintro rfl
      cases brace
    obtain ⟨gap, part, rfl, skipped, branch⟩ := takes_items.1 takes
    obtain ⟨rfl, -, rfl⟩ | ⟨tail, rfl, later⟩ | ⟨first, others, written, tail, rfl, closing, semicolon, head, later, rfl⟩ :=
      branch
    · have same := skip_extended skipped ⟨'}', brace, by decide⟩ more
      have finishes : Finishes (rest ++ more) := .inr ((List.head?_append_of_ne_nil rest nonempty).trans brace)
      exact takes_items.2 ⟨gap, [], rfl, by simpa using same, .inl ⟨rfl, finishes, rfl⟩⟩
    · have same := skip_extended skipped ⟨';', rfl, by decide⟩ more
      have last := ih tail.length (by simp; omega) tail rfl rest body brace later
      exact takes_items.2 ⟨gap, _, rfl, by simpa using same, .inr (.inl ⟨tail, rfl, last⟩)⟩
    · have positive := List.length_pos_iff.2 ((progresses_statement (proceeds_items sheet)).takes_ne_nil head)
      have last := ih tail.length (by simp; omega) tail rfl rest others brace later
      have left : tail ++ rest ≠ [] := List.append_ne_nil_of_right_ne_nil tail nonempty
      have settled : Settled (tail ++ rest) := settled_of_items later (ahead_of_items later nonempty)
      have here := statement_extended (fun part short => ih part.length (by simp; omega) part rfl) left (fun _ => settled) head
      have begins : Settled (gap ++ (written ++ tail ++ rest)) := settled_of_statement (by simpa using skipped) head
      have same := skip_extended skipped (skipped ▸ begins.solid) more
      refine takes_items.2 ⟨gap, written ++ tail, rfl, by simpa using same, .inr (.inr
        ⟨first, others, written, tail, rfl, closing, semicolon, ?_, last, rfl⟩)⟩
      simpa using here

end
end Statement.Grammar
end StyleScript
