import StyleScript.Proofs.Excerpts
import StyleScript.Proofs.Pieces
import StyleScript.Proofs.StatementTaking

/-! Every character of a source that is accepted is accounted for. Whatever a reading takes is cut
into pieces: heads that are kept in the tree, and trivia and marks that nothing depends on. -/

namespace StyleScript.Statement.Grammar
open Reading Trivia

theorem skipped_of_skip {gap rest : Text} (same : skip (gap ++ rest) = rest) : Skipped rest gap := by
  obtain ⟨inside, whole, skipped, -⟩ := exists_skipped (gap ++ rest)
  rw [same] at whole skipped
  rw [List.append_cancel_right whole]
  exact skipped

section
variable {sheet : Sheet} {before taken rest text : Text}

/-- The head of a statement is its excerpt and the white characters that were trimmed. -/
theorem exists_cuts_head (whole : sheet.source = before ++ (text ++ rest)) (nonempty : text ≠ [])
    (visible : Text.Stops Text.isWhite text) :
    ∃ gap, Cuts sheet before text (.head (sheet.excerpt (text ++ rest) rest) :: gap) ∧ Gap gap := by
  obtain ⟨whites, same, kept, white⟩ := Text.exists_trim nonempty visible
  obtain ⟨gap, cuts, isGap⟩ := exists_cuts_whites sheet (before ++ Text.trim text) white
  rw [Sheet.excerpt_append whole]
  have head : Cuts sheet before (Text.trim text)
      [.head ⟨Text.trim text, ⟨sheet.filename, 1 + Text.newlines before⟩⟩] := by
    refine .single (.head ⟨Text.trim text, _⟩) kept (fun _ _ => kept) fun site member => ?_
    cases member
    rfl
  refine ⟨gap, ?_, isGap⟩
  have both := head.append cuts
  rw [← same] at both
  exact both

theorem exists_cuts_skip (before : Text) (whole : sheet.source = before ++ (taken ++ rest))
    (skipped : skip (taken ++ rest) = rest) :
    ∃ pieces, Cuts sheet before taken pieces ∧ Gap pieces :=
  exists_cuts_skipped before whole (skipped_of_skip skipped)

theorem cuts_semicolon : Cuts sheet before [';'] [.semicolon] :=
  .mark .semicolon (fun _ => List.cons_ne_nil _ _) rfl

theorem gap_semicolon : Gap [.semicolon] := .cons trivial .nil

theorem exists_cuts_terminator (before : Text) (whole : sheet.source = before ++ (taken ++ rest))
    (takes : (terminator sheet).Takes taken () rest) : ∃ gap, Cuts sheet before taken gap ∧ Gap gap := by
  obtain ⟨-, skipped⟩ | ⟨gap, rfl, skipped⟩ := takes_terminator.1 takes
  · exact exists_cuts_skip before whole skipped
  · obtain ⟨pieces, cuts, isGap⟩ := exists_cuts_skip before (by rw [whole]; simp) skipped
    exact ⟨pieces ++ [.semicolon], cuts.append cuts_semicolon, isGap.append gap_semicolon⟩

/-- That items inside braces are accounted for is what a statement needs of its bodies. -/
def Accounted (sheet : Sheet) (taken : Text) : Prop :=
  ∀ before rest body, sheet.source = before ++ (taken ++ rest) → (items sheet).Takes taken body rest →
    ∃ pieces, Cuts sheet before taken pieces ∧ CutAll pieces body

theorem exists_cuts_block (before : Text) {body : List Statement}
    (accounted : ∀ inside, inside.length < taken.length → Accounted sheet inside)
    (whole : sheet.source = before ++ (taken ++ rest)) (takes : (block sheet (items sheet)).Takes taken body rest) :
    ∃ pieces, Cuts sheet before taken pieces ∧ CutBlock pieces body := by
  obtain ⟨gap, inside, rfl, skipped, reads⟩ := (takes_block (proceeds_items sheet)).1 takes
  obtain ⟨lead, cuts, isGap⟩ := exists_cuts_skip before (by rw [whole]; simp) skipped
  have opening : Cuts sheet (before ++ gap) ['{'] [.opening] := .mark .opening (fun _ => List.cons_ne_nil _ _) rfl
  have closing : Cuts sheet (before ++ gap ++ ['{'] ++ inside) ['}'] [.closing] :=
    .mark .closing (fun _ => List.cons_ne_nil _ _) rfl
  obtain ⟨pieces, inner, cut⟩ := accounted inside (by simp; omega) (before ++ gap ++ ['{']) ('}' :: rest) body
    (by rw [whole]; simp) reads
  exact ⟨_, cuts.append (opening.append (inner.append closing)), .braces isGap cut⟩

/-- The same for what follows a body, which an `if` after an `@else` needs of its later branches. -/
def AccountedBranch (sheet : Sheet) (taken : Text) : Prop :=
  ∀ before rest value, sheet.source = before ++ (taken ++ rest) → (follow sheet (items sheet)).Takes taken value rest →
    ∃ pieces, Cuts sheet before taken pieces ∧ CutOtherwise pieces value

theorem exists_cuts_elseIf (before : Text) {value : Otherwise}
    (accounted : ∀ inside, inside.length < taken.length → Accounted sheet inside)
    (later : ∀ others, others.length ≤ taken.length → AccountedBranch sheet others)
    (whole : sheet.source = before ++ ("if".toList ++ taken ++ rest))
    (takes : (elseIf sheet (items sheet) (follow sheet (items sheet)) ("if".toList ++ taken ++ rest)).Takes taken
    value rest) :
    ∃ pieces, Cuts sheet before ("if".toList ++ taken) pieces ∧
      ∀ {gap between}, Gap gap → Gap between → CutOtherwise (gap ++ .elseWord :: (between ++ pieces)) value := by
  have proceeds := proceeds_items sheet
  obtain ⟨condition, body, otherwise, written, inside, others, rfl, reads, blocks, branches, rfl⟩ :=
    (takes_elseIf proceeds (proceeds_follow proceeds)).1 takes
  obtain ⟨spaces, expr, rfl, blank, -, reads⟩ := (Expr.Grammar.takes_argument Expr.progresses_expr.proceeds).1 reads
  rw [List.append_assoc spaces] at whole ⊢
  have ifWord : Cuts sheet before "if".toList
      [.ifWord (sheet.siteOf ("if".toList ++ (spaces ++ (condition ++ (inside ++ others))) ++ rest))] := by
    refine .single (.ifWord _) (List.cons_ne_nil _ _) (fun _ _ => List.cons_ne_nil _ _) fun site member => ?_
    cases member
    exact Sheet.siteOf_append whole
  obtain ⟨blanks, cutsBlanks, isAfter⟩ := exists_cuts_whites sheet (before ++ "if".toList)
    fun c member => Text.isWhite_of_isBlank (blank c member)
  have cutsCondition : Cuts sheet (before ++ "if".toList ++ spaces) condition [.condition condition] :=
    .mark (.condition condition) (fun _ => Expr.progresses_expr.takes_ne_nil reads) rfl
  obtain ⟨block, cutsBlock, cut⟩ := exists_cuts_block (before ++ "if".toList ++ spaces ++ condition)
    (fun part short => accounted part (by simp; omega)) (by rw [whole]; simp) blocks
  obtain ⟨last, cutsLast, cutLast⟩ := later others (by simp; omega)
    (before ++ "if".toList ++ spaces ++ condition ++ inside) rest otherwise (by rw [whole]; simp) branches
  exact ⟨.ifWord _ :: (blanks ++ .condition condition :: (block ++ last)),
    ifWord.append (cutsBlanks.append (cutsCondition.append (cutsBlock.append cutsLast))),
    fun isGap isBetween => .condition isGap isBetween isAfter cut cutLast⟩

/-- By induction on the text, since every later branch comes after an `@else`. -/
theorem accountedBranch_follow (accounted : ∀ inside, inside.length < taken.length → Accounted sheet inside) :
    AccountedBranch sheet taken := by
  have proceeds := proceeds_items sheet
  induction size : taken.length using Nat.strongRecOn generalizing taken with
  | ind size ih =>
    subst size
    intro before rest value whole takes
    obtain ⟨rfl, rfl, -⟩ | ⟨gap, between, more, rfl, skipped, -, skipped', branch⟩ := (takes_follow proceeds).1 takes
    · exact ⟨[], .nil, .nothing⟩
    · obtain ⟨first, cutsFirst, isGap⟩ := exists_cuts_skip before (by rw [whole]; simp) skipped
      have elseWord : Cuts sheet (before ++ gap) "@else".toList [.elseWord] :=
        .mark .elseWord (fun _ => List.cons_ne_nil _ _) rfl
      obtain ⟨second, cutsSecond, isBetween⟩ := exists_cuts_skip (before ++ gap ++ "@else".toList)
        (by rw [whole]; simp) skipped'
      obtain ⟨-, last⟩ | ⟨after, rfl, -, branch⟩ := branch
      · obtain ⟨body, inside, rfl⟩ := takes_lastBlock.1 last
        obtain ⟨block, cutsBlock, cut⟩ := exists_cuts_block (before ++ gap ++ "@else".toList ++ between)
          (fun part short => accounted part (by simp; omega)) (by rw [whole]; simp) inside
        exact ⟨first ++ .elseWord :: (second ++ block),
          cutsFirst.append (elseWord.append (cutsSecond.append cutsBlock)), .block isGap (cut.prepend isBetween)⟩
      · have later (others : Text) (short : others.length ≤ after.length) : AccountedBranch sheet others :=
          ih others.length (by simp; omega) (fun part shorter => accounted part (by simp; omega)) rfl
        obtain ⟨pieces, cuts, cut⟩ := exists_cuts_elseIf (before ++ gap ++ "@else".toList ++ between)
          (fun part short => accounted part (by simp; omega)) later (by rw [whole]; simp) branch
        exact ⟨first ++ .elseWord :: (second ++ pieces),
          cutsFirst.append (elseWord.append (cutsSecond.append cuts)), cut isGap isBetween⟩

/-- What comes after an excerpt whose last character is taken: the rest of one simple statement. -/
theorem exists_cuts_simple {head trailing : Text} {value : Statement}
    (whole : sheet.source = before ++ (head ++ (trailing ++ rest))) (nonempty : head ≠ [])
    (visible : Text.Stops Text.isWhite head) (ends : (terminator sheet).Takes trailing () rest)
    (cut : Cut [.head (sheet.excerpt (head ++ (trailing ++ rest)) (trailing ++ rest))] value) :
    ∃ first gap, Cuts sheet before (head ++ trailing) (first ++ gap) ∧ Cut first value ∧ Gap gap := by
  obtain ⟨whites, cuts, isGap⟩ := exists_cuts_head whole nonempty visible
  obtain ⟨last, tail, isLast⟩ := exists_cuts_terminator (before ++ head) (by rw [whole]; simp) ends
  exact ⟨[_], whites ++ last, cuts.append tail, cut, isGap.append isLast⟩

theorem exists_cuts_assignment {value : Statement} (whole : sheet.source = before ++ (taken ++ rest))
    (takes : (assignment sheet).Takes taken value rest) :
    ∃ first gap, Cuts sheet before taken (first ++ gap) ∧ Cut first value ∧ Gap gap := by
  obtain ⟨name, text, isDefault, head, written, mark, trailing, rfl, target, -, -, ends, rfl⟩ :=
    takes_assignment.1 takes
  obtain ⟨gap, same, -, -⟩ := takes_target.1 target
  have nonempty : head ++ (written ++ mark) ≠ [] := by simp [same]
  have visible : Text.Stops Text.isWhite (head ++ (written ++ mark)) := by
    rw [same]
    cases sheet.dialect <;> exact Text.stops_cons.2 (by decide)
  have cut : head ++ (written ++ (mark ++ trailing)) ++ rest =
      head ++ (written ++ mark) ++ (trailing ++ rest) := by simp
  rw [cut] at whole ⊢
  obtain ⟨first, last, cuts, item, isGap⟩ := exists_cuts_simple whole nonempty visible ends .assign
  refine ⟨first, last, ?_, item, isGap⟩
  rw [List.append_assoc, List.append_assoc] at cuts
  exact cuts

section
variable {word : Text} {value : Statement}
variable (whole : sheet.source = before ++ (word ++ (taken ++ rest))) (begins : ∃ tail, word = '@' :: tail)
include whole begins

theorem exists_cuts_single (build : Excerpt → Text → Statement)
    (builds : ∀ excerpt text, Cut [.head excerpt] (build excerpt text))
    (takes : (single sheet build (word ++ (taken ++ rest))).Takes taken value rest) :
    ∃ first gap, Cuts sheet before (word ++ taken) (first ++ gap) ∧ Cut first value ∧ Gap gap := by
  obtain ⟨tail, rfl⟩ := begins
  obtain ⟨text, written, trailing, rfl, -, ends, rfl⟩ := takes_single.1 takes
  have cut : '@' :: tail ++ (written ++ trailing ++ rest) = '@' :: tail ++ written ++ (trailing ++ rest) := by simp
  rw [cut] at whole ⊢
  rw [← List.append_assoc]
  exact exists_cuts_simple whole (List.cons_ne_nil _ _) (Text.stops_cons.2 (by decide)) ends (builds _ text)

theorem exists_cuts_function (accounted : ∀ inside, inside.length < (word ++ taken).length → Accounted sheet inside)
    (takes : (function sheet (items sheet) (word ++ (taken ++ rest))).Takes taken value rest) :
    ∃ first gap, Cuts sheet before (word ++ taken) (first ++ gap) ∧ Cut first value ∧ Gap gap := by
  obtain ⟨letters, rfl⟩ := begins
  obtain ⟨header, head, tail, rfl, -, read, ends⟩ := (takes_function (proceeds_items sheet)).1 takes
  have cut : '@' :: letters ++ (head ++ tail ++ rest) = '@' :: letters ++ head ++ (tail ++ rest) := by simp
  rw [cut] at whole read
  rw [← List.append_assoc]
  have excerpt := Header.excerpt_of_ofExcerpt read
  obtain ⟨-, body, inside, rfl⟩ | ⟨-, ends, rfl⟩ := ends
  · obtain ⟨gap, cuts, isGap⟩ := exists_cuts_head whole (List.cons_ne_nil _ _) (Text.stops_cons.2 (by decide))
    obtain ⟨block, inner, braces⟩ := exists_cuts_block (before ++ ('@' :: letters ++ head))
      (fun part short => accounted part (by simp; omega)) (by rw [whole]; simp) inside
    rw [← excerpt] at cuts
    refine ⟨.head header.excerpt :: (gap ++ block), [], ?_, .function (braces.prepend isGap), .nil⟩
    rw [List.append_nil]
    exact cuts.append inner
  · exact exists_cuts_simple whole (List.cons_ne_nil _ _) (Text.stops_cons.2 (by decide)) ends (excerpt ▸ .bodiless)

theorem exists_cuts_conditional (accounted : ∀ inside, inside.length < (word ++ taken).length → Accounted sheet inside)
    (takes : (conditional sheet (items sheet) (word ++ (taken ++ rest))).Takes taken value rest) :
    ∃ first gap, Cuts sheet before (word ++ taken) (first ++ gap) ∧ Cut first value ∧ Gap gap := by
  obtain ⟨letters, rfl⟩ := begins
  obtain ⟨condition, body, otherwise, written, inside, others, rfl, -, blocks, later, rfl⟩ :=
    (takes_conditional (proceeds_items sheet)).1 takes
  have cut : '@' :: letters ++ (written ++ (inside ++ others) ++ rest) =
      '@' :: letters ++ written ++ (inside ++ (others ++ rest)) := by simp
  rw [cut] at whole ⊢
  obtain ⟨gap, cuts, isGap⟩ := exists_cuts_head whole (List.cons_ne_nil _ _) (Text.stops_cons.2 (by decide))
  obtain ⟨block, inner, braces⟩ := exists_cuts_block (before ++ ('@' :: letters ++ written))
    (fun part short => accounted part (by simp; omega)) (by rw [whole]; simp) blocks
  have branch : AccountedBranch sheet others := accountedBranch_follow fun part short => accounted part (by simp; omega)
  obtain ⟨branches, tail, ends⟩ := branch (before ++ ('@' :: letters ++ written) ++ inside) rest otherwise
    (by rw [whole]; simp) later
  refine ⟨.head _ :: (gap ++ block ++ branches), [], ?_, .conditional (braces.prepend isGap) ends, .nil⟩
  rw [List.append_nil, ← List.append_assoc, List.append_assoc gap]
  exact cuts.append (inner.append tail)

end

theorem exists_cuts_statement (before : Text) {value : Statement}
    (accounted : ∀ inside, inside.length < taken.length → Accounted sheet inside)
    (whole : sheet.source = before ++ (taken ++ rest))
    (takes : (statement sheet (items sheet)).Takes taken value rest) :
    ∃ first gap, Cuts sheet before taken (first ++ gap) ∧ Cut first value ∧ Gap gap := by
  obtain ⟨word, kind, written, rfl, member, -, reads⟩ | ⟨-, reads⟩ := (takes_statement (proceeds_items sheet)).1 takes
  · have letters := head_of_directive member
    rw [List.append_assoc] at whole
    cases kind with
    | function => exact exists_cuts_function whole letters accounted reads
    | returns => exact exists_cuts_single whole letters .returns (fun _ _ => .returns) reads
    | conditional => exact exists_cuts_conditional whole letters accounted reads
    | print severity => exact exists_cuts_single whole letters (.print · severity ·) (fun _ _ => .print) reads
  · exact exists_cuts_assignment whole reads

/-- By induction on the text, since what is inside braces is shorter than the text around it. -/
theorem accounted_items (sheet : Sheet) (taken : Text) : Accounted sheet taken := by
  induction size : taken.length using Nat.strongRecOn generalizing taken with
  | ind size ih =>
    subst size
    intro before rest body whole takes
    obtain ⟨gap, more, rfl, skipped, branch⟩ := takes_items.1 takes
    obtain ⟨lead, cuts, isGap⟩ := exists_cuts_skip before (by rw [whole]; simp) skipped
    obtain ⟨rfl, -, rfl⟩ | ⟨tail, rfl, later⟩ | ⟨first, others, written, tail, rfl, -, -, head, later, rfl⟩ := branch
    · rw [List.append_nil]
      exact ⟨lead, cuts, .done isGap⟩
    · obtain ⟨pieces, inner, cut⟩ := ih tail.length (by simp; omega) tail rfl (before ++ gap ++ [';']) rest body
        (by rw [whole]; simp) later
      rw [← List.singleton_append]
      exact ⟨lead ++ ([.semicolon] ++ pieces), cuts.append (cuts_semicolon.append inner),
        (cut.prepend gap_semicolon).prepend isGap⟩
    · obtain ⟨pieces, trailing, inner, cut, isTrailing⟩ := exists_cuts_statement (before ++ gap)
        (fun part short => ih part.length (by simp; omega) part rfl) (by rw [whole]; simp) head
      have nonempty := (progresses_statement (proceeds_items sheet)).takes_ne_nil head
      have positive := List.length_pos_iff.2 nonempty
      obtain ⟨rest, last, cutRest⟩ := ih tail.length (by simp; omega) tail rfl (before ++ gap ++ written) rest others
        (by rw [whole]; simp) later
      refine ⟨lead ++ (pieces ++ (trailing ++ rest)), ?_, .item isGap cut (cutRest.prepend isTrailing)⟩
      rw [← List.append_assoc pieces]
      exact cuts.append (inner.append last)

end
end StyleScript.Statement.Grammar

namespace StyleScript.Sheet
open Statement.Grammar

/-- What is accepted is cut into pieces, with nothing between them and nothing left over. In the
order of the source they are the heads of the statements, each where its site says, the conditions
of later branches, and white characters, comments, semicolons, braces and the words of branches. -/
theorem exists_pieces {sheet : Sheet} {statements : List Statement} (accepted : sheet.statements = .ok statements) :
    ∃ pieces, pieces.flatMap Piece.text = sheet.source ∧ CutAll pieces statements ∧
      (∀ place ∈ places 0 pieces, place.Stands sheet) ∧
      (places 0 pieces).Pairwise fun first later => first.start < first.finish ∧ first.finish ≤ later.start := by
  have whole : sheet.source = [] ++ (sheet.source ++ []) := (List.append_nil _).symm
  obtain ⟨pieces, cuts, cut⟩ := accounted_items sheet sheet.source [] [] statements whole (statements_eq_ok.1 accepted)
  exact ⟨pieces, cuts.whole, cut, cuts.stands whole, cuts.increasing 0⟩

/-- A function, a comment, and a condition with a later branch on a line of its own. -/
theorem exists_pieces_branches :
    ∃ sheet statements, sheet.source =
        "@function f($x) \x7b @return $x \x7d\n@if $a \x7b $b: 1; \x7d // c\n@else if not $a \x7b @warn $a \x7d".toList ∧
      sheet.statements = .ok statements ∧
      statements.map Statement.excerpt = [⟨"@function f($x)".toList, ⟨"main.scss".toList, 1⟩⟩,
        ⟨"@if $a".toList, ⟨"main.scss".toList, 2⟩⟩] ∧
      ∃ pieces, pieces.flatMap Piece.text = sheet.source ∧ CutAll pieces statements ∧
        ∀ place ∈ places 0 pieces, place.Stands sheet := by
  let sheet : Sheet := ⟨"main.scss".toList, .standard,
    "@function f($x) \x7b @return $x \x7d\n@if $a \x7b $b: 1; \x7d // c\n@else if not $a \x7b @warn $a \x7d".toList⟩
  have reads : sheet.statements.toOption.map (List.map Statement.excerpt) =
      some [⟨"@function f($x)".toList, ⟨"main.scss".toList, 1⟩⟩, ⟨"@if $a".toList, ⟨"main.scss".toList, 2⟩⟩] := by
    decide +kernel
  obtain ⟨statements, accepted, kept⟩ := Reading.ok_of_toOption_map reads
  obtain ⟨pieces, whole, cut, stands, -⟩ := exists_pieces accepted
  exact ⟨sheet, statements, rfl, accepted, kept, pieces, whole, cut, stands⟩

end StyleScript.Sheet
