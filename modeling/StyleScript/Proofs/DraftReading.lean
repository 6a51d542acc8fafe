import StyleScript.Proofs.Drafts
import StyleScript.Proofs.Endings
import StyleScript.Proofs.StatementTaking

/-! Drafts are read back. Whatever fills the gaps, every part of the grammar stops where its part
of the draft ends, and the tree of the draft is what it makes of it. -/

namespace StyleScript

namespace Text

theorem trim_of_visible {text : Text} (starts : Stops isWhite text) (visible : Visible text) : trim text = text := by
  rw [trim, trimStart_of_stops starts, trimEnd_of_visible visible]

theorem stops_trim (text : Text) : Stops isWhite (trim text) := by
  obtain ⟨whites, same, -⟩ := exists_trimEnd (trimStart text)
  have starts : Stops isWhite (trimStart text) := stops_dropWhile _ _
  rw [trim]
  cases inner : trimEnd (trimStart text) with
  | nil => exact stops_nil _
  | cons c tail =>
    rw [inner] at same
    rw [same] at starts
    exact stops_cons.2 (stops_cons.1 starts)

end Text

theorem quoteAfter_none {c : Char} (first : c ≠ '"') (second : c ≠ '\'') : quoteAfter none c = none :=
  if_neg fun quote => quote.elim first second

theorem enclosed_of_forall {text : Text} (plain : ∀ c ∈ text, c ∉ ['{', ';', '}', '"', '\'']) : Enclosed none text := by
  induction text with
  | nil => rfl
  | cons c text ih =>
    have here := plain c List.mem_cons_self
    simp only [List.mem_cons, List.not_mem_nil, or_false, not_or] at here
    obtain ⟨opening, semicolon, closing, first, second⟩ := here
    refine ⟨fun _ => by simp [opening, semicolon, closing], ?_⟩
    rw [quoteAfter_none first second]
    exact ih fun d member => plain d (List.mem_cons_of_mem _ member)

theorem enclosed_of_whites {text : Text} (white : ∀ c ∈ text, Text.isWhite c = true) : Enclosed none text := by
  apply enclosed_of_forall
  intro c member mark
  have outside : ['{', ';', '}', '"', '\''].any Text.isWhite = false := by decide
  have visible := Text.eq_false_of_any outside mark
  rw [white c member] at visible
  cases visible

theorem Enclosed.of_append {word text : Text} (plain : word.all (fun c => c != '"' && c != '\'') = true)
    (enclosed : Enclosed none (word ++ text)) : Enclosed none text := by
  induction word with
  | nil => exact enclosed
  | cons c word ih =>
    simp only [List.all_cons, Bool.and_eq_true, bne_iff_ne] at plain
    obtain ⟨⟨first, second⟩, later⟩ := plain
    have tail := enclosed.2
    rw [quoteAfter_none first second] at tail
    exact ih later tail

theorem fromHeaderEnd_enclosed {text : Text} {quote : Option Char} (enclosed : Enclosed quote text) (rest : Text) :
    fromHeaderEnd quote (text ++ rest) = fromHeaderEnd none rest := by
  induction text generalizing quote with
  | nil =>
    rw [show quote = none from enclosed]
    rfl
  | cons c text ih =>
    obtain ⟨plain, later⟩ := enclosed
    rw [List.cons_append, fromHeaderEnd, if_neg, ih later]
    intro mark
    obtain ⟨outside, mark⟩ := mark
    exact plain outside (by simpa using mark)

/-- A head begins with its word and a blank. -/
theorem exists_head {dialect : Dialect} {name head : Text} {parameters : List Parameter}
    (isHead : IsHead dialect name parameters head) :
    ∃ c tail, head = "@function".toList ++ c :: tail ∧ Text.isBlank c = true := by
  obtain ⟨site, read⟩ := isHead.read
  obtain ⟨_, _, _, _, signature, -⟩ := Header.ofExcerpt_eq_ok.1 read
  have visible : Text.Stops Text.isBlank head := by
    rw [← isHead.trimmed]
    exact (Text.stops_trim head).mono fun c blank => Text.isWhite_of_isBlank blank
  obtain ⟨_, start, first, more⟩ := Reading.bind_eq_ok.1 signature
  obtain ⟨_, middle, word, more⟩ := Reading.bind_eq_ok.1 more
  obtain ⟨_, last, spaces, -⟩ := Reading.bind_eq_ok.1 more
  have same : Text.dropBlanks head = start := congrArg Prod.snd (Except.ok.inj first)
  have kept : Text.dropBlanks head = head := Text.dropBlanks_append (List.forall_mem_nil _) visible
  obtain ⟨gap, rfl, taken⟩ := Parser.progresses_blanks1.proceeds.takes spaces
  obtain ⟨nonempty, blank, -⟩ := Parser.takes_blanks1.1 taken
  cases gap with
  | nil => exact absurd rfl nonempty
  | cons c gap =>
    refine ⟨c, gap ++ last, ?_, blank c List.mem_cons_self⟩
    rw [← kept, same, Parser.exactly_eq_ok.1 word]
    rfl

namespace Expr.Grammar
open Reading StyleScript.Parser Text

theorem visible_of_canonical {expression : Text} (canonical : Canonical expression) : Visible expression := by
  obtain ⟨⟨expr, reads⟩, -⟩ := canonical
  apply visible_of_expr expression expr []
  rw [Takes, List.append_nil]
  exact reads

theorem takes_given {gap expression rest : Text} (blank : ∀ c ∈ gap, isBlank c = true)
    (canonical : Canonical expression) (closes : Closes rest) :
    (argument parser).Takes (gap ++ expression) expression rest := by
  have proper : Argument.Proper ⟨gap, expression, []⟩ := ⟨canonical, blank, List.forall_mem_nil _⟩
  exact takes_canonical proper closes

/-- An exclamation mark before a letter is no operator. -/
theorem follows_default {bare : Prop} (never : ¬ bare) {gap rest : Text} (blank : ∀ c ∈ gap, isBlank c = true) :
    Follows bare [] (gap ++ ("!default".toList ++ rest)) := by
  have same : dropBlanks (gap ++ ("!default".toList ++ rest)) = "!default".toList ++ rest :=
    dropBlanks_append blank (stops_cons.2 (by decide))
  have stops {test : Char → Bool} (blanks : [' ', '\t', '\r', '\n'].any test = false) (mark : test '!' = false) :
      Stops test (gap ++ ("!default".toList ++ rest)) := by
    cases gap with
    | nil => exact stops_cons.2 mark
    | cons c gap => exact stops_of_isBlank (blank c List.mem_cons_self) blanks _
  have ends (layer : Layer) : layer.Ends (gap ++ ("!default".toList ++ rest)) := by
    by_cases sign : layer.starts '!' = true
    · cases layer <;> try cases sign
      apply refuses_item
      rw [same, comparisonOperator]
      simp [refuses_orElse, refuses_operator]
    · apply layer.ends_of_head
      rw [same]
      exact stops_cons.2 (Bool.not_eq_true _ ▸ sign)
  exact ⟨.inr (stops (by decide) (by decide)), stops (by decide) (by decide), fun holds => absurd holds never,
    fun layer _ => ends layer⟩

theorem takes_markable {after gap expression rest : Text} (blank : ∀ c ∈ after, isBlank c = true)
    (canonical : Canonical expression) (markable : IsMarkable expression) (blank' : ∀ c ∈ gap, isBlank c = true) :
    (argument parser).Takes (after ++ expression) expression (gap ++ ("!default".toList ++ rest)) := by
  obtain ⟨⟨expr, reads⟩, visible⟩ := canonical
  have whole : parser.Takes expression expr [] := by
    rw [Takes, List.append_nil]
    exact reads
  have here : parser.Takes expression expr (gap ++ ("!default".toList ++ rest)) :=
    takes_of_follows whole (follows_default (markable expr reads) blank')
  refine (takes_argument progresses_expr.proceeds).2 ⟨after, expr, rfl, blank, ?_, here⟩
  exact (stops_congr (head?_append_congr (progresses_expr.takes_ne_nil here) [] _)).1 (by rwa [List.append_nil])

end Expr.Grammar

namespace Statement.Grammar
open Reading Trivia StyleScript.Expr
open Text (Stops)

section
variable {sheet : Sheet}

theorem items_of_skip {first second : Text} (same : skip first = skip second) :
    items sheet first = items sheet second := by
  rw [items_eq, itemsStep, itemsStep, same]

theorem items_semicolon (text : Text) : items sheet (';' :: text) = items sheet text := by
  have here : skip (';' :: text) = ';' :: text := skip_cons (by decide) text
  calc items sheet (';' :: text)
    _ = itemsStep sheet (items sheet) (items sheet) (';' :: text) := congrFun (items_eq sheet) _
    _ = items sheet text := itemsStep_semicolon here

theorem items_filler {filler : Filler} (fits : filler = .semicolon ∨ filler.IsTrivia) (text : Text) :
    items sheet (filler.text ++ text) = items sheet text := by
  obtain rfl | trivia := fits
  · exact items_semicolon text
  · exact items_of_skip (filler.skip_text trivia text)

theorem items_fill {lead : List Filler} (isLead : IsLead lead) (text : Text) :
    items sheet (fill lead ++ text) = items sheet text := by
  induction lead with
  | nil => rfl
  | cons filler lead ih =>
    obtain ⟨first, rest⟩ := List.forall_mem_cons.1 isLead
    rw [fill_cons, items_filler first, ih rest]

theorem Finishes.skip {rest : Text} (finishes : Finishes rest) : Trivia.skip rest = rest := by
  obtain rfl | brace := finishes
  · exact skip_nil
  · obtain ⟨tail, rfl⟩ := List.head?_eq_some_iff.1 brace
    exact skip_cons (by decide) tail

theorem Finishes.closes {rest : Text} (finishes : Finishes rest) : Closes rest := by
  obtain rfl | brace := finishes
  · exact .inl rfl
  · obtain ⟨tail, rfl⟩ := List.head?_eq_some_iff.1 brace
    exact closes_of_head (by simp) rfl

/-- What ends a statement may be put off by trivia. -/
theorem terminator_filler {filler : Filler} (trivia : filler.IsTrivia) {trailing left : Text}
    (takes : (terminator sheet).Takes trailing () left) :
    (terminator sheet).Takes (filler.text ++ trailing) () left := by
  obtain ⟨finishes, skipped⟩ | ⟨gap, rfl, skipped⟩ := takes_terminator.1 takes
  · refine takes_terminator.2 (.inl ⟨finishes, ?_⟩)
    rw [List.append_assoc, filler.skip_text trivia, skipped]
  · refine takes_terminator.2 (.inr ⟨filler.text ++ gap, (List.append_assoc ..).symm, ?_⟩)
    rw [List.append_assoc, filler.skip_text trivia, skipped]

/-- A text that ends the statement before it, and from which the same items are read once that
end is taken. -/
structure Ended (sheet : Sheet) (next : Text) : Prop where
  closes : Closes next
  taken : ∃ trailing left, next = trailing ++ left ∧ (terminator sheet).Takes trailing () left ∧
    items sheet left = items sheet next

theorem ended_of_finishes {rest : Text} (finishes : Finishes rest) : Ended sheet rest where
  closes := finishes.closes
  taken := ⟨[], rest, rfl, takes_terminator.2 (.inl ⟨finishes, finishes.skip⟩), rfl⟩

theorem ended_semicolon (text : Text) : Ended sheet (';' :: text) where
  closes := closes_of_head (by simp) rfl
  taken := ⟨[';'], text, rfl, takes_terminator.2 (.inr ⟨[], rfl, skip_cons (by decide) text⟩),
    (items_semicolon text).symm⟩

theorem Ended.filler {filler : Filler} (trivia : filler.IsTrivia) {next : Text} (ended : Ended sheet next) :
    Ended sheet (filler.text ++ next) where
  closes := filler.closes (.inr trivia) ended.closes
  taken := by
    obtain ⟨trailing, left, same, takes, items⟩ := ended.taken
    refine ⟨filler.text ++ trailing, left, by rw [same, List.append_assoc], terminator_filler trivia takes, ?_⟩
    rw [items, items_filler (.inr trivia)]

theorem ended_fill {lead : List Filler} (isLead : IsLead lead) {text : Text}
    (ends : .semicolon ∈ lead ∨ Ended sheet text) : Ended sheet (fill lead ++ text) := by
  induction lead with
  | nil => exact ends.resolve_left List.not_mem_nil
  | cons filler lead ih =>
    obtain ⟨rfl | trivia, rest⟩ := List.forall_mem_cons.1 isLead
    · rw [fill_cons]
      exact ended_semicolon _
    · rw [fill_cons]
      refine .filler trivia (ih rest (ends.imp_left fun member => ?_))
      obtain rfl | member := List.mem_cons.1 member
      · cases trivia
      · exact member

end
end Statement.Grammar
end StyleScript
