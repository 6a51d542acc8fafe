import StyleScript.Proofs.Balance
import StyleScript.Proofs.Gathering
import StyleScript.Proofs.Heads

/-! Where the list of parameters ends, and what the defaults hold then. The list runs to the last closing parenthesis
of the head, so it is the last default that decides whether this is the one that matches the opening one. -/

namespace StyleScript

open Nesting

theorem Nesting.isPlain_of_class {test : Char → Bool} {text : Text} (outside : ['(', ')', '"', '\''].any test = false)
    (inside : ∀ c ∈ text, test c = true) : IsPlain text := by
  intro c member mark
  have impossible := Text.eq_false_of_any outside mark
  rw [inside c member] at impossible
  cases impossible

theorem Nesting.IsPlain.append {first second : Text} (one : IsPlain first) (other : IsPlain second) :
    IsPlain (first ++ second) :=
  List.forall_mem_append.2 ⟨one, other⟩

theorem Text.exists_whites_trim (text : Text) :
    ∃ before after, text = before ++ (trim text ++ after) ∧ IsPlain before ∧ IsPlain after := by
  obtain ⟨whites, same, white⟩ := exists_trimEnd (trimStart text)
  refine ⟨text.takeWhile isWhite, whites, ?_, ?_, isPlain_of_class (by decide) white⟩
  · rw [trim, ← same, trimStart, List.takeWhile_append_dropWhile]
  · exact isPlain_of_class (by decide) fun c member => List.all_eq_true.1 List.all_takeWhile c member

namespace Parameter

/-- A trimmed text that declares a parameter: the sigil and the name alone, or before a separator and a default that
is not blank, with white characters between the name and the separator. -/
def Declares (dialect : Dialect) (text : Text) (parameter : Parameter) : Prop :=
  Name.isIdentifier parameter.name = true ∧
    (parameter.default = none ∧ text = dialect.sigil :: parameter.name ∨
      ∃ gap given, text = dialect.sigil :: parameter.name ++ (gap ++ dialect.separator :: given) ∧
        (∀ c ∈ gap, Text.isWhite c = true) ∧ parameter.default = some (Text.trim given) ∧ Text.trim given ≠ [])

theorem declares_of_ofText? {dialect : Dialect} {text : Text} {parameter : Parameter}
    (reads : ofText? dialect text = some parameter) : Declares dialect (Text.trim text) parameter := by
  rw [ofText?] at reads
  have kept : Text.trimEnd (Text.trim text) = Text.trim text := Text.trimEnd_trimEnd _
  generalize Text.trim text = trimmed at reads kept
  have cut := List.takeWhile_append_dropWhile (p := (· != dialect.separator)) (l := trimmed)
  have stops := Text.stops_dropWhile (· != dialect.separator) trimmed
  obtain ⟨gap, target, white⟩ := Text.exists_trimEnd (trimmed.takeWhile (· != dialect.separator))
  split at reads
  · cases reads
  next sigil name written =>
    split at reads
    next isName =>
      obtain ⟨rfl, identifier⟩ := isName
      split at reads
      next nothing =>
        cases reads
        rw [nothing, List.append_nil] at cut
        rw [cut, kept] at written
        exact ⟨identifier, .inl ⟨rfl, written⟩⟩
      next mark given rest =>
        split at reads
        · cases reads
        next visible =>
          cases reads
          rw [target, written, rest, List.append_assoc] at cut
          rw [rest] at stops
          obtain rfl : mark = dialect.separator := by simpa using Text.stops_cons.1 stops
          exact ⟨identifier, .inr ⟨gap, given, cut.symm, white, rfl, visible⟩⟩
    next => cases reads

/-- Around a default there are only blanks, the name and the marks of the dialect. -/
theorem exists_around_default {dialect : Dialect} {text : Text} {parameter : Parameter}
    (reads : ofText? dialect text = some parameter) :
    ∃ before after, text = before ++ (parameter.default.getD [] ++ after) ∧ IsPlain before ∧ IsPlain after := by
  obtain ⟨before, after, whole, plainBefore, plainAfter⟩ := Text.exists_whites_trim text
  obtain ⟨identifier, parts⟩ := declares_of_ofText? reads
  have plainTarget : IsPlain (before ++ dialect.sigil :: parameter.name) := by
    have letters : IsPlain parameter.name := isPlain_of_class (by decide) (Name.continues_of_isIdentifier identifier)
    have sigil : dialect.sigil ∉ ['(', ')', '"', '\''] := by cases dialect <;> decide
    exact plainBefore.append (List.forall_mem_cons.2 ⟨sigil, letters⟩)
  obtain ⟨absent, bare⟩ | ⟨gap, given, defaulted, white, present, -⟩ := parts
  · refine ⟨_, after, ?_, plainTarget, plainAfter⟩
    rw [whole, bare, absent]
    simp
  · obtain ⟨front, back, same, plainFront, plainBack⟩ := Text.exists_whites_trim given
    have plainGap : IsPlain gap := isPlain_of_class (by decide) white
    have plainMark : IsPlain [dialect.separator] := List.forall_mem_singleton.2 (by cases dialect <;> decide)
    refine ⟨_, _, ?_, plainTarget.append (plainGap.append (plainMark.append plainFront)), plainBack.append plainAfter⟩
    rw [whole, defaulted, present]
    conv_lhs => rw [same]
    simp

/-- The scans end behind a parameter where they end behind its default. -/
theorem scans_eq {dialect : Dialect} {text : Text} {parameter : Parameter}
    (reads : ofText? dialect text = some parameter) :
    outside.scan text = outside.scan (parameter.default.getD []) ∧
      outside.strictly text = outside.strictly (parameter.default.getD []) := by
  obtain ⟨before, after, rfl, plainBefore, plainAfter⟩ := exists_around_default reads
  exact scans_of_plain plainBefore plainAfter

/-- What the empty text has does not depend on parameters without a default. -/
theorem forall_default_iff {holds : Text → Prop} (empty : holds []) (parameter : Parameter) :
    holds (parameter.default.getD []) ↔ ∀ default ∈ parameter.default, holds default := by
  cases parameter.default <;> simp [empty]

end Parameter

namespace Header

/-- All that is asked of defaults is asked of the texts of the parameters. -/
theorem forall_texts_iff {dialect : Dialect} {texts : List Text} {parameters : List Parameter}
    (reads : List.Forall₂ (fun text parameter => Parameter.ofText? dialect text = some parameter) texts parameters)
    (holds : Text → Prop) (empty : holds [])
    (same : ∀ text text', outside.scan text = outside.scan text' ∧ outside.strictly text = outside.strictly text' →
      (holds text ↔ holds text')) :
    (∀ text ∈ texts, holds text) ↔ ∀ parameter ∈ parameters, ∀ default ∈ parameter.default, holds default := by
  induction reads with
  | nil => exact iff_of_true (List.forall_mem_nil _) (List.forall_mem_nil _)
  | cons first _ ih =>
    rw [List.forall_mem_cons, List.forall_mem_cons, ih, same _ _ (Parameter.scans_eq first),
      Parameter.forall_default_iff empty]

/-- How an accepted head ends. Before the last parameter every default is closed, where a closing parenthesis that
nothing opened counts for nothing. The list ends at the last closing parenthesis, and this is the one that matches the
opening one if and only if all defaults are balanced. Quotes are closed in the defaults if they are in the head. -/
structure IsClosed (header : Header) : Prop where
  inner : ∀ parameter ∈ header.parameters.dropLast, ∀ default ∈ parameter.default, outside.scan default = outside
  matching : header.parameters = [] ∧ '(' ∉ header.excerpt.source ∨
    ∃ front list closing, header.excerpt.source = front ++ '(' :: (list ++ ')' :: closing) ∧ '(' ∉ front ∧ ')' ∉ closing ∧
      (outside.fromClosing (list ++ ')' :: closing) = some closing ↔
        ∀ parameter ∈ header.parameters, ∀ default ∈ parameter.default, Balanced default)
  quotes : (outside.scan header.excerpt.source).quote = none ↔
    ∀ parameter ∈ header.parameters, ∀ default ∈ parameter.default, (outside.scan default).quote = none

/-- The scans of a list and of its parts. A blank list has no parts, and nothing in it matters. -/
theorem parameterTexts_closed (list : Text) :
    (∀ part ∈ (parameterTexts (some list)).dropLast, outside.scan part = outside) ∧
      (Balanced list ↔ ∀ part ∈ parameterTexts (some list), Balanced part) ∧
      ((outside.scan list).quote = none ↔ ∀ part ∈ parameterTexts (some list), (outside.scan part).quote = none) := by
  rw [parameterTexts]
  split
  next blank =>
    obtain ⟨before, after, whole, plainBefore, plainAfter⟩ := Text.exists_whites_trim list
    rw [blank] at whole
    have plain : IsPlain list := whole ▸ plainBefore.append plainAfter
    refine ⟨List.forall_mem_nil _, iff_of_true ?_ (List.forall_mem_nil _), iff_of_true ?_ (List.forall_mem_nil _)⟩
    · exact strictly_of_plain proper_outside plain
    · rw [scan_of_plain proper_outside plain]
      rfl
  next =>
    have cut := cutAtCommas_commaParts list
    exact ⟨cut.closed, cut.balanced_iff, cut.quote_scan_iff⟩

/-- Before its list and after it a head has no quotes. -/
theorem quote_scan_head {front list closing : Text} (plainFront : IsPlain front) (plainClosing : IsPlain closing) :
    (outside.scan (front ++ '(' :: (list ++ ')' :: closing))).quote = (outside.scan list).quote := by
  have opened : outside.scan (front ++ '(' :: (list ++ ')' :: closing)) =
      (((⟨none, 1⟩ : Nesting).scan list).after ')').scan closing := by
    rw [scan_append, scan_of_plain proper_outside plainFront]
    exact scan_append ⟨none, 1⟩ list (')' :: closing)
  have inside : Nesting.Proper ⟨none, 1⟩ := fun _ quote => nomatch quote
  have proper := inside.scan list
  have unquoted : (⟨none, 1⟩ : Nesting).quote = outside.quote := rfl
  rw [opened, scan_of_plain (proper.after ')') plainClosing, quote_after_of_not_mark proper (by decide)]
  exact quote_scan_congr unquoted

/-- The head up to its list, and after it. -/
theorem exists_around_list {text name rest : Text} {list : Option Text}
    (reads : signature text = .ok ((name, list), rest)) :
    ∃ front, IsPlain front ∧ (list = none ∧ text = front ∨
      ∃ inside closing, list = some inside ∧ text = front ++ '(' :: (inside ++ ')' :: closing) ∧ IsPlain closing) := by
  obtain ⟨⟨front, gap, spaces, back, rfl, blank, -, -, continues, ends⟩, -⟩ := spells_of_signature reads
  have plainBlank {text : Text} (inside : ∀ c ∈ text, Text.isBlank c = true) : IsPlain text :=
    isPlain_of_class (by decide) inside
  have plainFront : IsPlain (front ++ ("@function".toList ++ (gap ++ (name ++ spaces)))) := by
    obtain ⟨blankFront, blankOthers⟩ := List.forall_mem_append.1 blank
    obtain ⟨blankGap, blankSpaces⟩ := List.forall_mem_append.1 blankOthers
    have plainName : IsPlain name := isPlain_of_class (by decide) continues
    have plainWord : IsPlain "@function".toList := by decide
    exact (plainBlank blankFront).append (plainWord.append ((plainBlank blankGap).append (plainName.append
      (plainBlank blankSpaces))))
  refine ⟨_, plainFront, ?_⟩
  obtain ⟨rfl, rfl⟩ | ⟨inside, closing, rfl, rfl, blankClosing⟩ := ends
  · exact .inl ⟨rfl, by simp only [List.append_nil]⟩
  · exact .inr ⟨inside, closing, rfl, by simp only [List.append_assoc], plainBlank blankClosing⟩

theorem isClosed_of_ofExcerpt {dialect : Dialect} {excerpt : Excerpt} {header : Header}
    (accepted : ofExcerpt dialect excerpt = .ok header) : header.IsClosed := by
  obtain ⟨name, list, rest, parameters, signature, read, rfl⟩ := ofExcerpt_eq_ok.1 accepted
  have reads := (readParameters_eq_ok.1 read).1
  obtain ⟨front, plainFront, ends⟩ := exists_around_list signature
  have unopened : '(' ∉ front := fun member => plainFront '(' member (by decide)
  obtain ⟨rfl, source⟩ | ⟨list, closing, rfl, source, plainClosing⟩ := ends
  · cases reads
    refine ⟨List.forall_mem_nil _, .inl ⟨rfl, source ▸ unopened⟩, iff_of_true ?_ (List.forall_mem_nil _)⟩
    change (outside.scan excerpt.source).quote = none
    rw [source, scan_of_plain proper_outside plainFront]
    rfl
  · have unclosed : ')' ∉ closing := fun member => plainClosing ')' member (by decide)
    obtain ⟨inner, balanced, quotes⟩ := parameterTexts_closed list
    refine ⟨?_, .inr ⟨front, list, closing, source, unopened, unclosed, ?_⟩, ?_⟩
    · have shorter : List.Forall₂ (fun text parameter => Parameter.ofText? dialect text = some parameter)
          (parameterTexts (some list)).dropLast parameters.dropLast := by
        rw [List.dropLast_eq_take, List.dropLast_eq_take, reads.length_eq]
        exact List.forall₂_take _ reads
      exact (forall_texts_iff shorter (outside.scan · = outside) rfl fun text text' same => by rw [same.1]).1 inner
    · refine fromClosing_eq_some_iff.trans (balanced.trans ?_)
      exact forall_texts_iff reads Balanced balanced_nil fun text text' same => by rw [Balanced, Balanced, same.2]
    · change (outside.scan excerpt.source).quote = none ↔ _
      rw [source, quote_scan_head plainFront plainClosing, quotes]
      exact forall_texts_iff reads (fun text => (outside.scan text).quote = none) rfl fun text text' same => by
        rw [same.1]

end Header

/-- Where a head ends at a mark, its quotes are closed. -/
theorem quote_scan_of_fromHeaderEnd {nesting : Nesting} {head finish : Text} (nonempty : finish ≠ [])
    (scanned : fromHeaderEnd nesting.quote (head ++ finish) = finish) : (nesting.scan head).quote = none := by
  induction head generalizing nesting with
  | nil =>
    cases finish with
    | nil => exact absurd rfl nonempty
    | cons c rest =>
      rw [List.nil_append, fromHeaderEnd] at scanned
      split at scanned
      next mark => exact mark.1
      · have shorter := (Statement.Grammar.fromHeaderEnd_suffix (quoteAfter nesting.quote c) rest).length_le
        rw [scanned] at shorter
        exact absurd shorter (Nat.not_succ_le_self _)
  | cons c head ih =>
    rw [List.cons_append, fromHeaderEnd] at scanned
    split at scanned
    · have longer := congrArg List.length scanned
      simp only [List.length_cons, List.length_append] at longer
      omega
    · exact ih scanned

/-- In an accepted head the list of parameters runs to the last closing parenthesis, which is the one that matches the
opening one exactly if all defaults are balanced; before the last parameter they are closed. In a source the quotes
of the defaults are closed, unless the head runs to the end of the source. -/
theorem heads_closed :
    (∀ (dialect : Dialect) (excerpt : Excerpt) (header : Header), Header.ofExcerpt dialect excerpt = .ok header →
      header.IsClosed) ∧
    ∀ (sheet : Sheet) (statements : List Statement), sheet.statements = .ok statements →
      ∀ definition : Definition, IsDeclared definition statements →
        definition.header.IsClosed ∧
          ((∀ parameter ∈ definition.header.parameters, ∀ default ∈ parameter.default,
              (outside.scan default).quote = none) ∨
            definition.body = [] ∧ ∃ before head, sheet.source = before ++ head ∧
              definition.header.excerpt.source = Text.trim head) := by
  refine ⟨fun _ _ _ => Header.isClosed_of_ofExcerpt, fun sheet statements accepted definition declared => ?_⟩
  obtain ⟨header, body⟩ := definition
  cases sheet.read_nodes accepted _ declared with
  | @function start finish _ _ reads within scanned bodiless =>
    have closed := Header.isClosed_of_ofExcerpt reads
    have source : header.excerpt.source = Text.trim (Text.before start finish) := by
      rw [Header.excerpt_of_ofExcerpt reads]
      rfl
    refine ⟨closed, ?_⟩
    obtain ⟨head, rfl⟩ : finish <:+ start := scanned ▸ Statement.Grammar.fromHeaderEnd_suffix none start
    rw [Text.before_append] at source
    by_cases toEnd : finish = []
    · obtain ⟨before, whole⟩ := within
      rw [toEnd, List.append_nil] at whole
      exact .inr ⟨bodiless toEnd, before, head, whole.symm, source⟩
    · left
      apply closed.quotes.1
      obtain ⟨front, back, same, plainFront, plainBack⟩ := Text.exists_whites_trim head
      have ends := quote_scan_of_fromHeaderEnd toEnd (show fromHeaderEnd outside.quote (head ++ finish) = finish from scanned)
      rw [same, (scans_of_plain plainFront plainBack).1] at ends
      rw [source]
      exact ends

/-- The parenthesis after the number matches the opening one, and the last one matches none. -/
def unmatchedHead : Sheet := ⟨['m'], .standard, "@function f($a: 1)) {}".toList⟩

theorem reads_unmatchedHead : unmatchedHead.statements.toOption.map (fun statements => match statements with
    | [.function header []] => decide (header.parameters = [⟨['a'], some "1)".toList⟩])
    | _ => false) = some true := by
  decide +kernel

theorem declared_unmatchedHead : ∃ statements definition, unmatchedHead.statements = .ok statements ∧
    IsDeclared definition statements ∧ definition.header.parameters = [⟨['a'], some "1)".toList⟩] := by
  obtain ⟨statements, accepted, holds⟩ := Reading.ok_of_toOption_map reads_unmatchedHead
  split at holds
  next header => exact ⟨_, ⟨header, []⟩, accepted, List.mem_cons_self, of_decide_eq_true holds⟩
  next => cases holds

/-- It is closed as far as every accepted head is, but its list does not end where the opening parenthesis is
matched. -/
theorem heads_closed_unmatched :
    ∃ statements definition, unmatchedHead.statements = .ok statements ∧ IsDeclared definition statements ∧
      definition.header.IsClosed ∧
      (∃ front list closing, definition.header.excerpt.source = front ++ '(' :: (list ++ ')' :: closing) ∧
        outside.fromClosing (list ++ ')' :: closing) ≠ some closing) := by
  obtain ⟨statements, definition, accepted, declared, parameters⟩ := declared_unmatchedHead
  obtain ⟨closed, -⟩ := heads_closed.2 unmatchedHead statements accepted definition declared
  refine ⟨statements, definition, accepted, declared, closed, ?_⟩
  obtain ⟨empty, -⟩ | ⟨front, list, closing, source, -, -, matching⟩ := closed.matching
  · rw [parameters] at empty
    cases empty
  · refine ⟨front, list, closing, source, fun matched => ?_⟩
    have balanced := matching.1 matched
    rw [parameters] at balanced
    exact absurd (balanced _ List.mem_cons_self _ rfl) (by decide)

/-- The parentheses of a default need not match. -/
theorem not_defaults_balanced :
    ¬ ∀ (sheet : Sheet) (statements : List Statement), sheet.statements = .ok statements →
      ∀ definition : Definition, IsDeclared definition statements →
        ∀ parameter ∈ definition.header.parameters, ∀ default ∈ parameter.default, Balanced default := by
  intro balanced
  obtain ⟨statements, definition, accepted, declared, parameters⟩ := declared_unmatchedHead
  have all := balanced unmatchedHead statements accepted definition declared
  rw [parameters] at all
  exact absurd (all _ List.mem_cons_self _ rfl) (by decide)

end StyleScript
