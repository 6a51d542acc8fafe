import StyleScript.Proofs.Extension
import StyleScript.Proofs.SealedExpr

/-! Sources one after the other. When a source is accepted, a last line with only a semicolon is not
inside of anything: no string, comment, head or search for a branch reaches it and goes on. So it ends
whatever stands above it, and a second source below it is read as if it stood alone. -/

namespace StyleScript
open Text (newlines)

namespace Text

theorem last_unique {c d : Char} {text : Text} (one : [c] <:+ text) (other : [d] <:+ text) : c = d := by
  obtain ⟨first, rfl⟩ := one
  obtain ⟨second, same⟩ := other
  exact (List.singleton_inj.1 (List.append_inj' same rfl).2).symm

theorem last_append {c : Char} {front tail : Text} (last : [c] <:+ front ++ tail) :
    tail = [] ∧ [c] <:+ front ∨ [c] <:+ tail := by
  obtain rfl | ⟨before, d, rfl⟩ := List.eq_nil_or_concat' tail
  · rw [List.append_nil] at last
    exact .inl ⟨rfl, last⟩
  · have same : c = d := last_unique last ⟨front ++ before, List.append_assoc ..⟩
    exact .inr ⟨before, by rw [same]⟩

theorem last_of_not_mem {c : Char} {front tail : Text} (last : [c] <:+ front ++ tail) (outside : c ∉ front) :
    [c] <:+ tail := by
  obtain ⟨-, before⟩ | last := last_append last
  · exact absurd (before.subset List.mem_cons_self) outside
  · exact last

/-- A trimmed text keeps its last semicolon. -/
theorem last_of_trim {text : Text} (visible : Stops isWhite text) (line : [';', '\n'] <:+ text) : [';'] <:+ trim text := by
  obtain ⟨before, rfl⟩ := line
  have kept : trimEnd (before ++ [';', '\n']) = before ++ [';'] := by
    have white : ∀ c ∈ ['\n'], isWhite c = true := List.forall_mem_singleton.2 (by decide)
    rw [← List.singleton_append, ← List.append_assoc, trimEnd_append_whites _ white,
      trimEnd_of_visible (.mark before (by decide))]
  rw [trim, trimStart_of_stops visible, kept]
  exact List.suffix_append _ _

theorem Visible.last_ne {text : Text} (visible : Visible text) {c : Char} (white : isWhite c = true) : ¬ [c] <:+ text := by
  obtain ⟨before, d, rfl, black⟩ := visible
  intro last
  obtain rfl := last_unique last ⟨before, rfl⟩
  rw [white] at black
  cases black

end Text

open Text

/-- Outside of quotes there is no semicolon, and so none at the end. -/
theorem Sealed.last_ne {commas : Bool} {text : Text} (isSealed : Sealed commas text) : ¬ [';'] <:+ text := by
  have step (front : Text) {rest : Text} {d : Char} (ends : [d] <:+ front) (other : ';' ≠ d) (later : ¬ [';'] <:+ rest) :
      ¬ [';'] <:+ front ++ rest := by
    intro last
    obtain ⟨-, here⟩ | there := last_append last
    · exact other (last_unique here ends)
    · exact later there
  induction isSealed with
  | nil => exact fun last => absurd (List.suffix_nil.1 last) (List.cons_ne_nil _ _)
  | @plain _ c rest plain _ ih =>
    refine step [c] (List.suffix_refl _) ?_ ih
    rintro rfl
    exact plain (by decide)
  | @quoted _ quote text rest isQuote _ _ ih =>
    have whole : quote :: (text ++ quote :: rest) = quote :: text ++ [quote] ++ rest := by simp
    rw [whole]
    refine step _ (List.suffix_append _ _) ?_ ih
    obtain rfl | rfl := isQuote <;> decide
  | @parens _ text rest _ _ _ ih =>
    have whole : '(' :: (text ++ ')' :: rest) = '(' :: text ++ [')'] ++ rest := by simp
    rw [whole]
    exact step _ (List.suffix_append _ _) (by decide) ih
  | comma _ ih => exact step [','] (List.suffix_refl _) (by decide) ih

/-- The last line is a semicolon, and no line before it goes on there. -/
def Anchored (text : Text) : Prop := text = [';', '\n'] ∨ ['\n', ';', '\n'] <:+ text

namespace Anchored
variable {front tail text : Text}

theorem cut (anchored : Anchored (front ++ tail)) :
    Anchored tail ∨ tail = ['\n'] ∧ (front = [';'] ∨ ['\n', ';'] <:+ front) ∨ tail = [] ∧ [';', '\n'] <:+ front := by
  obtain whole | ⟨before, same⟩ := anchored
  · match front, whole with
    | [], whole => exact .inl (.inl whole)
    | [c], whole =>
      cases whole
      exact .inr (.inl ⟨rfl, .inl rfl⟩)
    | c :: d :: front, whole =>
      simp only [List.cons_append, List.cons.injEq, List.append_eq_nil_iff] at whole
      obtain ⟨rfl, rfl, rfl, rfl⟩ := whole
      exact .inr (.inr ⟨rfl, List.suffix_refl _⟩)
  · obtain ⟨left, rfl, parts⟩ | ⟨left, rfl, rfl⟩ := List.append_eq_append_iff.1 same
    · clear same
      match left, parts with
      | [], parts => exact .inl (.inr ⟨[], parts⟩)
      | [c], parts =>
        cases parts
        exact .inl (.inl rfl)
      | [c, d], parts =>
        cases parts
        exact .inr (.inl ⟨rfl, .inr (List.suffix_append _ _)⟩)
      | c :: d :: e :: left, parts =>
        simp only [List.cons_append, List.cons.injEq, List.nil_eq, List.append_eq_nil_iff] at parts
        obtain ⟨rfl, rfl, rfl, rfl, rfl⟩ := parts
        exact .inr (.inr ⟨rfl, (List.suffix_cons '\n' _).trans (List.suffix_append before _)⟩)
    · exact .inl (.inr (List.suffix_append _ _))

theorem line (anchored : Anchored text) : [';', '\n'] <:+ text := by
  obtain rfl | inside := anchored
  · exact List.suffix_refl _
  · exact (List.suffix_cons '\n' _).trans inside

theorem last (anchored : Anchored text) : ['\n'] <:+ text := (List.suffix_cons ';' _).trans anchored.line

theorem nonempty (anchored : Anchored text) : text ≠ [] := by
  rintro rfl
  exact absurd (List.suffix_nil.1 anchored.last) (List.cons_ne_nil _ _)

/-- A comment that runs to the end of its line does not hold the line before, and a closed one ends in its mark. -/
theorem not_skipped (skipped : Trivia.Skipped [] text) : ¬ Anchored text := by
  induction skipped with
  | nil => exact fun anchored => anchored.nonempty rfl
  | @blank c text blank _ ih =>
    intro anchored
    rw [← List.singleton_append] at anchored
    obtain later | ⟨rfl, semicolon | long⟩ | ⟨rfl, long⟩ := anchored.cut
    · exact ih later
    · cases semicolon
      cases blank
    · exact absurd long.length_le (by simp)
    · exact absurd long.length_le (by simp)
  | @comment comment text isComment _ ih =>
    intro anchored
    have never {d : Char} (newline : '\n' ∈ comment) (ends : [d] <:+ comment) (other : '/' ≠ d) : False := by
      cases isComment with
      | line inside => simp [inside] at newline
      | @closed text => exact other (last_unique ⟨'/' :: '*' :: (text ++ ['*']), by simp⟩ ends)
    obtain later | ⟨rfl, semicolon | long⟩ | ⟨rfl, long⟩ := anchored.cut
    · exact ih later
    · cases isComment <;> cases semicolon
    · exact never (long.subset (by simp)) ((List.suffix_cons _ _).trans long) (by decide)
    · exact never (long.subset (by simp)) ((List.suffix_cons _ _).trans long) (by decide)

theorem skip (anchored : Anchored text) : Anchored (Trivia.skip text) := by
  obtain ⟨gap, whole, skipped, -⟩ := Trivia.exists_skipped text
  have again := Trivia.skip_skip text
  rw [whole] at anchored
  obtain later | ⟨newline, -⟩ | ⟨empty, -⟩ := anchored.cut
  · exact later
  · rw [newline, Trivia.skip_blank (by decide), Trivia.skip_nil] at again
    cases again
  · rw [empty] at skipped anchored
    rw [List.append_nil] at anchored
    exact absurd anchored (not_skipped skipped)

end Anchored

namespace Header
open Reading StyleScript.Parser

/-- A last semicolon is left to what comes next. -/
def Leaves {α : Type} (parser : Parser α) : Prop :=
  ∀ text value rest, parser text = .ok (value, rest) → [';'] <:+ text → [';'] <:+ rest

theorem leaves_of_takes {α : Type} {parser : Parser α} (proceeds : parser.Proceeds)
    (outside : ∀ taken value rest, parser.Takes taken value rest → ';' ∉ taken) : Leaves parser := by
  intro text value rest reads last
  obtain ⟨taken, rfl, takes⟩ := proceeds.takes reads
  exact last_of_not_mem last (outside taken value rest takes)

theorem leaves_blanks : Leaves blanks := by
  refine leaves_of_takes proceeds_blanks fun taken value rest takes member => ?_
  cases (takes_blanks.1 takes).1 ';' member

/-- Between parentheses a semicolon is not the last. -/
theorem leaves_optional_listText : Leaves (optional listText) := by
  intro text value rest reads last
  obtain ⟨list, -, reads⟩ | ⟨-, rfl, -⟩ := optional_eq_ok.1 reads
  · obtain ⟨_, inside, opening, reads⟩ := bind_eq_ok.1 reads
    rw [char_eq_ok.1 opening] at last
    have later : [';'] <:+ inside := last_of_not_mem (show [';'] <:+ ['('] ++ inside from last) (by decide)
    obtain ⟨before, rfl⟩ := later
    have kept : trimEnd (before ++ [';']) = before ++ [';'] := trimEnd_of_visible (.mark before (by decide))
    simp [kept] at reads
  · exact last

/-- The head of a function ends in its name or in a parenthesis. -/
theorem last_ne_of_signature {text rest : Text} {found : Text × Option Text}
    (reads : signature text = .ok (found, rest)) : ¬ [';'] <:+ text := by
  intro last
  obtain ⟨_, _, first, reads⟩ := bind_eq_ok.1 reads
  obtain ⟨_, _, word, reads⟩ := bind_eq_ok.1 reads
  obtain ⟨_, _, spaces, reads⟩ := bind_eq_ok.1 reads
  obtain ⟨_, _, name, reads⟩ := bind_eq_ok.1 reads
  obtain ⟨_, _, second, reads⟩ := bind_eq_ok.1 reads
  obtain ⟨_, _, list, reads⟩ := bind_eq_ok.1 reads
  obtain ⟨_, left, third, reads⟩ := bind_eq_ok.1 reads
  obtain ⟨_, _, ends, -⟩ := bind_eq_ok.1 reads
  have last := leaves_blanks _ _ _ first last
  have last := leaves_of_takes (proceeds_exactly _)
    (fun taken _ _ takes => by rw [takes_exactly.1 takes]; decide) _ _ _ word last
  have last := leaves_of_takes progresses_blanks1.proceeds
    (fun taken _ _ takes member => by cases (takes_blanks1.1 takes).2.1 ';' member) _ _ _ spaces last
  have last := leaves_of_takes (progresses_takeWhile1 _).proceeds
    (fun taken _ _ takes member => by cases (takes_takeWhile1.1 takes).2.2.1 ';' member) _ _ _ name last
  have last := leaves_blanks _ _ _ second last
  have last := leaves_optional_listText _ _ _ list last
  have last := leaves_blanks _ _ _ third last
  rw [atEnd] at ends
  split at ends
  next empty =>
    rw [empty] at last
    exact absurd (List.suffix_nil.1 last) (List.cons_ne_nil _ _)
  · cases ends

end Header

namespace Statement.Grammar
open Reading Trivia

section
variable {sheet : Sheet} {taken rest : Text}

theorem last_ne_of_argument {value : Text} (takes : (Expr.Grammar.argument Expr.parser).Takes taken value rest)
    (front : Text) : ¬ [';'] <:+ front ++ taken ∧ ¬ ['\n'] <:+ front ++ taken := by
  obtain ⟨gap, expr, rfl, -, -, reads⟩ := (Expr.Grammar.takes_argument Expr.progresses_expr.proceeds).1 takes
  have nonempty := Expr.progresses_expr.takes_ne_nil reads
  have inside {c : Char} (last : [c] <:+ front ++ (gap ++ value)) : [c] <:+ value := by
    rw [← List.append_assoc] at last
    exact (last_append last).resolve_left fun empty => nonempty empty.1
  exact ⟨fun last => (Expr.sealed_of_takes reads).last_ne (inside last),
    fun last => (Expr.visible_of_expr _ _ _ reads).last_ne (by decide) (inside last)⟩

theorem not_anchored_of_brace (last : ['}'] <:+ taken) (front : Text) : ¬ Anchored (front ++ taken) :=
  fun anchored => absurd (last_unique anchored.last (List.suffix_append_of_suffix last)) (by decide)

theorem not_anchored_of_terminator (takes : (terminator sheet).Takes taken () []) : ¬ Anchored taken := by
  intro anchored
  obtain ⟨-, skipped⟩ | ⟨gap, rfl, -⟩ := takes_terminator.1 takes
  · rw [List.append_nil] at skipped
    exact anchored.skip.nonempty skipped
  · exact absurd (last_unique anchored.last (List.suffix_append _ _)) (by decide)

/-- Before the end of a simple statement there is neither its semicolon nor a newline. -/
theorem not_anchored_of_ends {front : Text} (last : ¬ [';'] <:+ front ∧ ¬ ['\n'] <:+ front)
    (takes : (terminator sheet).Takes taken () []) : ¬ Anchored (front ++ taken) := by
  intro anchored
  obtain later | ⟨-, rfl | long⟩ | ⟨-, long⟩ := anchored.cut
  · exact not_anchored_of_terminator takes later
  · exact last.1 (List.suffix_refl _)
  · exact last.1 ((List.suffix_cons _ _).trans long)
  · exact last.2 ((List.suffix_cons _ _).trans long)

theorem not_anchored_of_single {build : Excerpt → Text → Statement} {start : Text} {value : Statement}
    (takes : (single sheet build start).Takes taken value []) (front : Text) : ¬ Anchored (front ++ taken) := by
  obtain ⟨text, written, trailing, rfl, reads, ends, -⟩ := takes_single.1 takes
  rw [← List.append_assoc]
  exact not_anchored_of_ends (last_ne_of_argument reads front) ends

theorem not_anchored_of_assignment {value : Statement} (takes : (assignment sheet).Takes taken value []) :
    ¬ Anchored taken := by
  obtain ⟨name, text, isDefault, head, written, mark, trailing, rfl, -, reads, marks, ends, -⟩ := takes_assignment.1 takes
  have last : ¬ [';'] <:+ head ++ (written ++ mark) ∧ ¬ ['\n'] <:+ head ++ (written ++ mark) := by
    obtain ⟨gap, -, rfl, -, -⟩ | ⟨-, rfl, -⟩ := takes_isDefault.1 marks
    · have word : ['t'] <:+ head ++ (written ++ (gap ++ "!default".toList)) :=
        ⟨head ++ (written ++ (gap ++ "!defaul".toList)), by simp⟩
      exact ⟨fun last => absurd (last_unique last word) (by decide), fun last => absurd (last_unique last word) (by decide)⟩
    · rw [List.append_nil]
      exact last_ne_of_argument reads head
  have ended := not_anchored_of_ends last ends
  simpa using ended

theorem mark_of_fromHeaderEnd {quote : Option Char} {text : Text} {c : Char}
    (found : fromHeaderEnd quote text = c :: rest) : c ∈ ['{', ';', '}'] := by
  induction text generalizing quote with
  | nil => cases found
  | cons d text ih =>
    rw [fromHeaderEnd] at found
    split at found
    next mark =>
      cases found
      simpa using mark.2
    · exact ih found

theorem not_anchored_of_function {word : Text} {value : Statement}
    (takes : (function sheet (items sheet) (word ++ taken)).Takes taken value []) (visible : Stops isWhite (word ++ taken)) :
    ¬ Anchored (word ++ taken) := by
  obtain ⟨header, front, tail, rfl, scanned, read, ends⟩ := (takes_function (proceeds_items sheet)).1 takes
  rw [← List.append_assoc]
  obtain ⟨-, body, inside, -⟩ | ⟨-, terminates, -⟩ := ends
  · exact not_anchored_of_brace (brace_of_block inside) _
  · intro anchored
    obtain later | ⟨rfl, -⟩ | ⟨rfl, long⟩ := anchored.cut
    · exact not_anchored_of_terminator terminates later
    · exact absurd (mark_of_fromHeaderEnd scanned) (by decide)
    · rw [List.append_nil] at visible read
      obtain ⟨_, _, _, _, reads, -⟩ := Header.ofExcerpt_eq_ok.1 read
      have whole : (sheet.excerpt (word ++ front) []).source = trim (word ++ front) := by
        have all := before_append (word ++ front) []
        rw [List.append_nil] at all
        exact congrArg trim all
      exact Header.last_ne_of_signature reads (whole ▸ last_of_trim visible long)

theorem not_anchored_of_statement {value : Statement} (takes : (statement sheet (items sheet)).Takes taken value []) :
    ¬ Anchored taken := by
  obtain ⟨word, kind, written, rfl, member, -, reads⟩ | ⟨-, reads⟩ := (takes_statement (proceeds_items sheet)).1 takes
  · cases kind with
    | function =>
      obtain ⟨tail, rfl⟩ := head_of_directive member
      rw [List.append_nil] at reads
      exact not_anchored_of_function reads (stops_cons.2 (by decide))
    | returns => exact not_anchored_of_single reads word
    | conditional => exact not_anchored_of_brace (brace_of_conditional reads) word
    | print severity =>
      have printed : (single sheet (.print · severity ·) _).Takes written value [] := reads
      exact not_anchored_of_single printed word
  · exact not_anchored_of_assignment reads

section
variable (more : Text)

/-- A statement leaves the last line, or takes its semicolon and leaves the newline. -/
theorem statement_anchored {value : Statement} (anchored : Anchored (taken ++ rest)) (settled : Anchored rest → Settled rest)
    (takes : (statement sheet (items sheet)).Takes taken value rest) :
    (Anchored rest ∨ rest = ['\n']) ∧
      (statement (sheet.extended more) (items (sheet.extended more))).Takes taken value (rest ++ more) := by
  have lasting : ∀ inside, inside.length < taken.length → Lasting sheet more inside :=
    fun inside _ => lasting_items sheet more inside
  obtain later | ⟨rfl, ends⟩ | ⟨rfl, -⟩ := anchored.cut
  · exact ⟨.inl later, statement_extended lasting later.nonempty (fun _ => settled later) takes⟩
  · have semicolon : [';'] <:+ taken := by
      obtain rfl | long := ends
      · exact List.suffix_refl _
      · exact (List.suffix_cons _ _).trans long
    refine ⟨.inr rfl, statement_extended lasting (List.cons_ne_nil _ _) (fun brace => ?_) takes⟩
    exact absurd (last_unique semicolon brace) (by decide)
  · rw [List.append_nil] at anchored
    exact absurd anchored (not_anchored_of_statement takes)

theorem items_nil (sheet : Sheet) : items sheet [] = .ok ([], []) := by
  rw [items_eq]
  exact itemsStep_end skip_nil (.inl rfl)

theorem items_newline (sheet : Sheet) (text : Text) : items sheet ('\n' :: text) = items sheet text :=
  items_of_skip (skip_blank (by decide) text)

theorem items_of_statement {text start : Text} {first : Statement} (same : skip text = start) (nonempty : start ≠ [])
    (brace : start.head? ≠ some '}') (semicolon : start.head? ≠ some ';')
    (reads : statement sheet (items sheet) start = .ok (first, rest)) :
    items sheet text = (items sheet rest).map fun result => (first :: result.1, result.2) := by
  calc items sheet text
    _ = itemsStep sheet (items sheet) (items sheet) text := congrFun (items_eq sheet) text
    _ = (do return (← statement sheet (items sheet)) :: (← items sheet)) start :=
      itemsStep_statement same nonempty brace semicolon
    _ = (do return first :: (← items sheet) : Reading Fault (List Statement)) rest := bind_of_reads reads _
    _ = (items sheet rest).map fun result => (first :: result.1, result.2) := bind_pure_eq_map _ _ rest

/-- What is read up to a last line is read before more text, whatever can be made of that. By induction on the
text, which every item shortens. -/
theorem items_anchored {text : Text} {body : List Statement} (anchored : Anchored text ∨ text = ['\n'])
    (takes : (items sheet).Takes text body []) :
    items (sheet.extended more) (text ++ more) =
      (items (sheet.extended more) more).map fun result => (body ++ result.1, result.2) := by
  induction size : text.length using Nat.strongRecOn generalizing text body with
  | ind size ih =>
    subst size
    obtain anchored | rfl := anchored
    · obtain ⟨gap, part, rfl, skipped, branch⟩ := takes_items.1 takes
      have inside : Anchored part := by
        have later := anchored.skip
        simp only [List.append_nil] at skipped
        rwa [skipped] at later
      rw [List.append_nil] at skipped
      obtain ⟨rfl, -⟩ | ⟨tail, rfl, later⟩ | ⟨first, others, written, tail, rfl, brace, semicolon, head, later, rfl⟩ := branch
      · exact absurd rfl inside.nonempty
      · have same : skip (gap ++ ';' :: tail ++ more) = skip (';' :: (tail ++ more)) :=
          (skip_extended skipped ⟨';', rfl, by decide⟩ more).trans (skip_cons (by decide) _).symm
        have ends : Anchored tail ∨ tail = ['\n'] := by
          rw [← List.singleton_append] at inside
          obtain later | ⟨newline, -⟩ | ⟨-, long⟩ := inside.cut
          · exact .inl later
          · exact .inr newline
          · exact absurd long.length_le (by simp)
        rw [items_of_skip same, items_semicolon]
        exact ih tail.length (by simp; omega) ends later rfl
      · rw [List.append_nil] at head
        have settled (anchored : Anchored tail) : Settled tail := by
          have ahead : skip (tail ++ []) ≠ [] := by
            rw [List.append_nil]
            exact anchored.skip.nonempty
          have settled := settled_of_items later ahead
          rwa [List.append_nil] at settled
        obtain ⟨ends, here⟩ := statement_anchored more inside settled head
        have positive := List.length_pos_iff.2 ((progresses_statement (proceeds_items sheet)).takes_ne_nil head)
        have rests := ih tail.length (by simp; omega) ends later rfl
        have begins := settled_of_statement skipped head
        have same := skip_extended skipped (skipped ▸ begins.solid) more
        have visible : (written ++ tail ++ more).head? = (written ++ tail).head? := List.head?_append_of_ne_nil _ inside.nonempty
        have nonempty := List.append_ne_nil_of_left_ne_nil inside.nonempty more
        rw [items_of_statement same nonempty (visible ▸ brace) (visible ▸ semicolon)
          ((congrArg _ (List.append_assoc ..)).trans here), rests]
        cases items (sheet.extended more) more <;> rfl
    · have same : items sheet (['\n'] ++ []) = .ok ([], []) := (items_newline sheet []).trans (items_nil sheet)
      cases same.symm.trans takes
      rw [List.singleton_append, items_newline]
      cases items (sheet.extended more) more <;> rfl

end

end
end Statement.Grammar

open Statement.Grammar

/-- Below a source with such a last line, another one is read as if it stood alone, only lower. -/
theorem Sheet.statements_under (sheet : Sheet) {above : Text} {statements : List Statement} (anchored : Anchored above)
    (accepted : (⟨sheet.filename, sheet.dialect, above⟩ : Sheet).statements = .ok statements) :
    (sheet.under above).statements =
      movedBy (newlines above) (fun later => statements ++ loweredAll (newlines above) later) sheet.statements := by
  have whole : items (sheet.under above) (above ++ sheet.source) =
      (items (sheet.under above) sheet.source).map fun result => (statements ++ result.1, result.2) :=
    items_anchored sheet.source (.inl anchored) (statements_eq_ok.1 accepted)
  rw [moves_items (sheet.cutAlike_under above) sheet.source (List.suffix_refl _)] at whole
  have source : (sheet.under above).source = above ++ sheet.source := rfl
  rw [statements_of_items, statements_of_items, source, whole]
  rcases reads : items sheet sheet.source with fault | ⟨found, rest⟩
  · rfl
  · cases rest with
    | nil => rfl
    | cons c rest =>
      have inside := proceeds_items sheet _ _ _ reads
      change Except.error (Fault.badSyntax ((sheet.under above).siteOf (c :: rest)) .strayBrace) = _
      rw [Sheet.siteOf_under above inside]
      rfl

/-- Reading is compositional. When a source that ends in a line with only a semicolon is accepted, then a second
source below it has the same statements, or the same fault, as by itself, moved down by the lines above it. -/
theorem Sheet.statements_append (filename : Text) (dialect : Dialect) (text next : Text) {statements : List Statement}
    (accepted : (⟨filename, dialect, text ++ "\n;\n".toList⟩ : Sheet).statements = .ok statements) :
    (∀ later, (⟨filename, dialect, next⟩ : Sheet).statements = .ok later →
      (⟨filename, dialect, text ++ "\n;\n".toList ++ next⟩ : Sheet).statements =
        .ok (statements ++ loweredAll (newlines (text ++ "\n;\n".toList)) later)) ∧
    ∀ fault, (⟨filename, dialect, next⟩ : Sheet).statements = .error fault →
      (⟨filename, dialect, text ++ "\n;\n".toList ++ next⟩ : Sheet).statements =
        .error (fault.lowered (newlines (text ++ "\n;\n".toList))) := by
  have anchored : Anchored (text ++ "\n;\n".toList) := .inr (List.suffix_append text _)
  have whole := (⟨filename, dialect, next⟩ : Sheet).statements_under anchored accepted
  constructor
  · intro later reads
    rw [reads] at whole
    exact whole
  · intro fault fails
    rw [fails] at whole
    exact whole

/-- A branch that would belong to the condition above it is no statement below such a line. -/
theorem Sheet.statements_append_branch :
    ∃ statements later,
      (⟨['m'], .standard, "@if true { }\n;\n".toList⟩ : Sheet).statements = .ok statements ∧
      (⟨['m'], .standard, "@debug 1".toList⟩ : Sheet).statements = .ok later ∧
      (⟨['m'], .standard, "@if true { }\n;\n@debug 1".toList⟩ : Sheet).statements =
        .ok (statements ++ loweredAll 2 later) ∧
      (⟨['m'], .standard, "@else { }".toList⟩ : Sheet).statements = .error (.badSyntax ⟨['m'], 1⟩ .expectedStatement) ∧
      (⟨['m'], .standard, "@if true { }\n;\n@else { }".toList⟩ : Sheet).statements =
        .error (.badSyntax ⟨['m'], 3⟩ .expectedStatement) := by
  have first : (⟨['m'], .standard, "@if true { }\n;\n".toList⟩ : Sheet).statements.toOption.map List.length = some 1 := by
    decide +kernel
  have second : (⟨['m'], .standard, "@debug 1".toList⟩ : Sheet).statements.toOption.map List.length = some 1 := by
    decide +kernel
  have third : (⟨['m'], .standard, "@else { }".toList⟩ : Sheet).statements =
      .error (.badSyntax ⟨['m'], 1⟩ .expectedStatement) := rfl
  obtain ⟨statements, accepted, -⟩ := Reading.ok_of_toOption_map first
  obtain ⟨later, reads, -⟩ := Reading.ok_of_toOption_map second
  have below := (Sheet.statements_append ['m'] .standard "@if true { }".toList "@debug 1".toList accepted).1 later reads
  have branch := (Sheet.statements_append ['m'] .standard "@if true { }".toList "@else { }".toList accepted).2 _ third
  exact ⟨statements, later, accepted, reads, below, third, branch⟩

end StyleScript
