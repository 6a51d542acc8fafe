import StyleScript.Proofs.DraftReading
import StyleScript.Proofs.Heads

/-! The round trip of statements: the text of a proper draft is read as its tree. There is one step
for each kind of statement and of branch, under the assumption that its bodies are read back, and
the induction over drafts puts the steps together. -/

namespace StyleScript.Statement.Grammar
open Reading Trivia StyleScript.Expr Expr.Grammar
open Text (Stops Visible)

/-- The items of a draft are read wherever they stand, as far as something finishes them. -/
def ReadsAll (sheet : Sheet) (drafts : Drafts) : Prop :=
  ∀ before rest, sheet.source = before ++ (drafts.text sheet.dialect ++ rest) → Finishes rest →
    (items sheet).Takes (drafts.text sheet.dialect) (drafts.trees sheet.dialect sheet.filename before) rest

/-- The branches of a draft are read unless another one comes after them. -/
def ReadsOtherwise (sheet : Sheet) (draft : DraftOtherwise) : Prop :=
  ∀ before next, sheet.source = before ++ (draft.text sheet.dialect ++ next) →
    (Parser.keyword "@else").Refuses (skip next) →
    (follow sheet (items sheet)).Takes (draft.text sheet.dialect) (draft.tree sheet.dialect sheet.filename before) next

/-- A statement is read before a text that does not go on with it. What is taken beyond it is not
missed by the items that come next. -/
def Reads (sheet : Sheet) (draft : Draft) : Prop :=
  ∀ before next, sheet.source = before ++ (draft.text sheet.dialect ++ next) →
    (Parser.keyword "@else").Refuses (skip next) → (draft.IsSimple → Ended sheet next) →
      ∃ left, statement sheet (items sheet) (draft.text sheet.dialect ++ next) =
          .ok (draft.tree sheet.dialect sheet.filename before, left) ∧ items sheet left = items sheet next

section
variable {sheet : Sheet} {before rest : Text}

theorem excerpt_of_visible {text : Text} (whole : sheet.source = before ++ (text ++ rest))
    (starts : Stops Text.isWhite text)
    (visible : Visible text) : sheet.excerpt (text ++ rest) rest = ⟨text, .after sheet.filename before⟩ := by
  rw [Sheet.excerpt_append whole, Text.trim_of_visible starts visible]
  rfl

/-- What a directive asks for is read after its word. -/
theorem statement_reads {word written : Text} {kind : Directive} {value : Statement}
    (member : (word, kind) ∈ directives)
    (stops : Stops Name.continues (written ++ rest))
    (takes : (directed sheet (items sheet) (word ++ (written ++ rest)) kind).Takes written value rest) :
    statement sheet (items sheet) (word ++ (written ++ rest)) = .ok (value, rest) := by
  have whole := (takes_statement (proceeds_items sheet)).2 (.inl ⟨word, kind, written, rfl, member, stops, takes⟩)
  rw [Takes, List.append_assoc] at whole
  exact whole

section
variable {gap expression : Text} (given : IsGiven gap expression)
include given

theorem stops_of_given (rest : Text) : Stops Name.continues (gap ++ expression ++ rest) := by
  have nonempty : gap ++ expression ≠ [] := by
    obtain ⟨inner, c, same, -⟩ := visible_of_canonical given.canonical
    simp [same]
  exact (Text.stops_congr (List.head?_append_of_ne_nil _ nonempty)).2 given.apart

theorem excerpt_of_given {word : Text} {kind : Directive} (member : (word, kind) ∈ directives)
    (whole : sheet.source = before ++ (word ++ (gap ++ expression) ++ rest)) :
    sheet.excerpt (word ++ (gap ++ expression) ++ rest) rest =
      ⟨word ++ (gap ++ expression), .after sheet.filename before⟩ := by
  obtain ⟨letters, rfl⟩ := head_of_directive member
  have visible := ((visible_of_canonical given.canonical).append gap).append ('@' :: letters)
  exact excerpt_of_visible whole (Text.stops_cons.2 (by decide)) visible

end

theorem reads_single {word gap expression next : Text} {kind : Directive} (build : Excerpt → Text → Statement)
    (member : (word, kind) ∈ directives)
    (directs : ∀ start, directed sheet (items sheet) start kind = single sheet build start)
    (given : IsGiven gap expression) (whole : sheet.source = before ++ (word ++ (gap ++ expression) ++ next))
    (ended : Ended sheet next) :
    ∃ left, statement sheet (items sheet) (word ++ (gap ++ expression) ++ next) =
        .ok (build ⟨word ++ (gap ++ expression), .after sheet.filename before⟩ expression, left) ∧
      items sheet left = items sheet next := by
  obtain ⟨trailing, left, rfl, ends, same⟩ := ended.taken
  have cut : word ++ (gap ++ expression) ++ (trailing ++ left) =
      word ++ (gap ++ expression ++ trailing ++ left) := by simp
  have stops : Stops Name.continues (gap ++ expression ++ trailing ++ left) := by
    rw [List.append_assoc]
    exact stops_of_given given _
  have excerpt := excerpt_of_given given member whole
  rw [cut] at excerpt ⊢
  refine ⟨left, statement_reads member stops ?_, same⟩
  rw [directs]
  refine takes_single.2 ⟨expression, gap ++ expression, trailing, rfl, ?_, ends, by rw [excerpt]⟩
  exact takes_given given.blank given.canonical ended.closes

theorem takes_defaultMark {default : Option Text} {expression next : Text}
    (marked : ∀ gap ∈ default, (∀ c ∈ gap, Text.isBlank c = true) ∧ IsMarkable expression) (closes : Closes next) :
    isDefault.Takes (defaultMark default) default.isSome next := by
  cases default with
  | none =>
    refine takes_isDefault.2 (.inr ⟨rfl, rfl, ?_⟩)
    obtain empty | ⟨c, rest, same, mark⟩ := closes.cases
    · rw [empty]
      exact Parser.refuses_keyword_nil (by decide)
    · rw [same]
      refine Parser.refuses_keyword_of_head (fun head => ?_) (by decide)
      have letter : '!' = c := Option.some.inj head
      subst letter
      simp at mark
  | some gap => exact takes_isDefault.2 (.inl ⟨gap, rfl, rfl, (marked gap rfl).1, closes.stops (by decide)⟩)

theorem takes_assigned {after expression next : Text} {default : Option Text}
    (blank : ∀ c ∈ after, Text.isBlank c = true)
    (canonical : Canonical expression)
    (marked : ∀ gap ∈ default, (∀ c ∈ gap, Text.isBlank c = true) ∧ IsMarkable expression) (closes : Closes next) :
    (argument Expr.parser).Takes (after ++ expression) expression (defaultMark default ++ next) := by
  cases default with
  | none => exact takes_given blank canonical closes
  | some gap =>
    obtain ⟨blank', markable⟩ := marked gap rfl
    rw [defaultMark, List.append_assoc]
    exact takes_markable blank canonical markable blank'

theorem visible_assigned {dialect : Dialect} {name blanks after expression : Text} {default : Option Text}
    (canonical : Canonical expression) : Visible (assigned dialect name blanks after expression default) := by
  have last : Visible (expression ++ defaultMark default) := by
    cases default with
    | none =>
      rw [defaultMark, List.append_nil]
      exact visible_of_canonical canonical
    | some gap =>
      have word : Visible "!default".toList := .mark "!defaul".toList (by decide)
      exact (word.append gap).append expression
  exact (((last.append after).append [dialect.separator]).append blanks).append (dialect.sigil :: name)

theorem reads_assign {name blanks after expression next : Text} {default : Option Text}
    (given : IsAssigned name blanks after expression default)
    (whole : sheet.source = before ++ (assigned sheet.dialect name blanks after expression default ++ next))
    (ended : Ended sheet next) :
    ∃ left, statement sheet (items sheet) (assigned sheet.dialect name blanks after expression default ++ next) =
        .ok (.assign ⟨assigned sheet.dialect name blanks after expression default, .after sheet.filename before⟩
          name expression
          default.isSome, left) ∧
      items sheet left = items sheet next := by
  obtain ⟨trailing, left, rfl, ends, same⟩ := ended.taken
  have starts : Stops Text.isWhite (assigned sheet.dialect name blanks after expression default) := by
    cases sheet.dialect <;> exact Text.stops_cons.2 (by decide)
  have excerpt := excerpt_of_visible whole starts (visible_assigned given.canonical)
  have cut (text : Text) : assigned sheet.dialect name blanks after expression default ++ text =
      sheet.dialect.sigil :: (name ++ (blanks ++ [sheet.dialect.separator])) ++
        (after ++ expression ++ (defaultMark default ++ text)) := by simp [assigned]
  refine ⟨left, ?_, same⟩
  have takes : (statement sheet (items sheet)).Takes
    (assigned sheet.dialect name blanks after expression default ++ trailing)
      (.assign ⟨assigned sheet.dialect name blanks after expression default, .after sheet.filename before⟩
        name expression
        default.isSome) left := by
    refine (takes_statement (proceeds_items sheet)).2
      (.inr ⟨rfl, takes_assignment.2 ⟨name, expression, default.isSome, _, _,
      _, trailing, cut trailing, ?_, ?_, ?_, ends, ?_⟩⟩)
    · exact takes_target.2 ⟨blanks, rfl, given.identifier, given.before⟩
    · exact takes_assigned given.after given.canonical given.marked ended.closes
    · exact takes_defaultMark given.marked ended.closes
    · rw [List.append_assoc, excerpt]
  rw [Takes, List.append_assoc] at takes
  exact takes

theorem isTrivial_nil : IsTrivial [] := List.forall_mem_nil _

theorem takes_braces (before rest : Text) {gap : List Filler} {body : Drafts} (isTrivial : IsTrivial gap)
    (reads : ReadsAll sheet body)
    (whole : sheet.source = before ++ (braces gap (body.text sheet.dialect) ++ rest)) :
    (block sheet (items sheet)).Takes (braces gap (body.text sheet.dialect))
      (body.trees sheet.dialect sheet.filename (before ++ (fill gap ++ ['{']))) rest := by
  refine (takes_block (proceeds_items sheet)).2 ⟨fill gap, body.text sheet.dialect, rfl, ?_, ?_⟩
  · rw [skip_fill isTrivial]
    exact skip_cons (by decide) _
  · refine reads _ _ ?_ (.inr rfl)
    rw [whole]
    simp [braces]

theorem closes_braces {gap : List Filler} (isTrivial : IsTrivial gap) (inside rest : Text) :
    Closes (braces gap inside ++ rest) := by
  have brace : Closes ('{' :: (inside ++ ['}']) ++ rest) := closes_of_head (by simp) rfl
  rw [braces, List.append_assoc]
  exact closes_fill isTrivial.lead brace

theorem readsOtherwise_nothing : ReadsOtherwise sheet .nothing :=
  fun _ _ _ refuses => (takes_follow (proceeds_items sheet)).2 (.inl ⟨rfl, rfl, refuses⟩)

theorem stops_fill {gap : List Filler} (isTrivial : IsTrivial gap) {text : Text}
    (stops : gap = [] → Stops Name.continues text) : Stops Name.continues (fill gap ++ text) := by
  cases gap with
  | nil => exact stops rfl
  | cons filler gap =>
    have first := isTrivial filler List.mem_cons_self
    rw [fill_cons]
    cases filler with
    | blank c => exact stops_of_isBlank first (by decide) _
    | line comment => exact Text.stops_cons.2 (by decide)
    | closed comment => exact Text.stops_cons.2 (by decide)
    | semicolon => cases first

/-- What comes after an `@else` is found behind the trivia on both of its sides. -/
theorem takes_else {gap between : List Filler} {more next : Text} {value : Otherwise} (isGap : IsTrivial gap)
    (isBetween : IsTrivial between) (stops : between = [] → Stops Name.continues (more ++ next))
    (visible : Stops (fun c => Text.isBlank c || c == '/') (more ++ next))
    (branch : (Parser.keyword "if").Refuses (more ++ next) ∧ (lastBlock sheet (items sheet)).Takes more value next ∨
      ∃ after, more = "if".toList ++ after ∧ Stops Name.continues (after ++ next) ∧
        (elseIf sheet (items sheet) (follow sheet (items sheet)) (more ++ next)).Takes after value next) :
    (follow sheet (items sheet)).Takes (fill gap ++ ("@else".toList ++ (fill between ++ more))) value next := by
  refine (takes_follow (proceeds_items sheet)).2
    (.inr ⟨fill gap, fill between, more, rfl, ?_, stops_fill isBetween stops, ?_,
    branch⟩)
  · rw [skip_fill isGap]
    exact skip_cons (by decide) _
  · rw [skip_fill isBetween]
    exact skip_of_head visible

theorem readsOtherwise_block {gap after : List Filler} {body : Drafts} (isGap : IsTrivial gap)
    (isAfter : IsTrivial after)
    (reads : ReadsAll sheet body) : ReadsOtherwise sheet (.block gap after body) := by
  intro before next whole refuses
  rw [DraftOtherwise.text_block] at whole ⊢
  have inside := takes_braces (before ++ fill gap ++ "@else".toList ++ fill after) next isTrivial_nil reads (by
    rw [whole]
    simp only [List.append_assoc, braces]
    rfl)
  have last := takes_lastBlock.2 ⟨_, inside, rfl⟩
  rw [List.append_assoc] at last
  exact takes_else isGap isAfter (fun _ => Text.stops_cons.2 (by decide)) (Text.stops_cons.2 (by decide))
    (.inl ⟨Parser.refuses_keyword_of_head (by decide) (by decide), last⟩)

theorem takes_laterCondition (before : Text) {blanks condition inside others next : Text} {body : List Statement}
    {otherwise : Otherwise}
    (given : IsGiven blanks condition)
    (whole : sheet.source = before ++ ("if".toList ++ (blanks ++ condition ++ (inside ++ others)) ++ next))
    (closes : ∀ rest, Closes (inside ++ rest)) (block : (block sheet (items sheet)).Takes inside body (others ++ next))
    (branches : (follow sheet (items sheet)).Takes others otherwise next) :
    (elseIf sheet (items sheet) (follow sheet (items sheet))
      ("if".toList ++ (blanks ++ condition ++ (inside ++ others)) ++ next)).Takes
        (blanks ++ condition ++ (inside ++ others))
          (.condition (.after sheet.filename before) condition body otherwise) next := by
  have proceeds := proceeds_items sheet
  refine (takes_elseIf proceeds (proceeds_follow proceeds)).2 ⟨condition, body, otherwise, blanks ++ condition, inside,
    others, rfl, takes_given given.blank given.canonical (closes _), block, branches, ?_⟩
  rw [Sheet.siteOf_append whole]
  rfl

theorem readsOtherwise_condition {gap between trailing : List Filler} {blanks condition : Text} {body : Drafts}
    {otherwise : DraftOtherwise} (isGap : IsTrivial gap) (nonempty : between ≠ []) (isBetween : IsTrivial between)
    (given : IsGiven blanks condition) (isTrailing : IsTrivial trailing) (reads : ReadsAll sheet body)
    (later : ReadsOtherwise sheet otherwise) :
    ReadsOtherwise sheet (.condition gap between blanks condition trailing body otherwise) := by
  intro before next whole refuses
  rw [DraftOtherwise.text_condition] at whole ⊢
  have inside := takes_braces
    (before ++ fill gap ++ "@else".toList ++ fill between ++ "if".toList ++ (blanks ++ condition))
    (otherwise.text sheet.dialect ++ next) isTrailing reads (by
      rw [whole]
      simp only [List.append_assoc])
  have others := later (before ++ fill gap ++ "@else".toList ++ fill between ++ "if".toList ++ (blanks ++ condition) ++
    braces trailing (body.text sheet.dialect)) next (by
      rw [whole]
      simp only [List.append_assoc]) refuses
  have branch := takes_laterCondition (before ++ fill gap ++ "@else".toList ++ fill between) given (by
    rw [whole]
    simp only [List.append_assoc]) (closes_braces isTrailing _) inside others
  refine takes_else isGap isBetween (fun empty => absurd empty nonempty) (Text.stops_cons.2 (by decide))
    (.inr ⟨_, rfl, ?_, branch⟩)
  rw [List.append_assoc]
  exact stops_of_given given _

theorem statement_conditional {gap condition inside others next : Text} {body : List Statement} {otherwise : Otherwise}
    (given : IsGiven gap condition)
    (whole : sheet.source = before ++ ("@if".toList ++ (gap ++ condition) ++ (inside ++ others ++ next)))
    (closes : ∀ rest, Closes (inside ++ rest)) (block : (block sheet (items sheet)).Takes inside body (others ++ next))
    (branches : (follow sheet (items sheet)).Takes others otherwise next) :
    statement sheet (items sheet) ("@if".toList ++ (gap ++ condition) ++ (inside ++ others ++ next)) =
      .ok (.conditional ⟨"@if".toList ++ (gap ++ condition), .after sheet.filename before⟩ condition body otherwise,
        next) := by
  have member : ("@if".toList, Directive.conditional) ∈ directives := .tail _ (.tail _ (.head _))
  have excerpt := excerpt_of_given given member whole
  have cut : "@if".toList ++ (gap ++ condition) ++ (inside ++ others ++ next) =
      "@if".toList ++ (gap ++ condition ++ (inside ++ others) ++ next) := by simp only [List.append_assoc]
  rw [cut] at excerpt ⊢
  refine statement_reads member ?_ ?_
  · rw [List.append_assoc]
    exact stops_of_given given _
  · refine (takes_conditional (proceeds_items sheet)).2 ⟨condition, body, otherwise, gap ++ condition, inside,
      others, rfl, takes_given given.blank given.canonical (closes _), block, branches, ?_⟩
    rw [← excerpt, List.append_assoc inside]

theorem reads_conditional {gap condition : Text} {trailing : List Filler} {body : Drafts} {otherwise : DraftOtherwise}
    (given : IsGiven gap condition) (isTrailing : IsTrivial trailing) (reads : ReadsAll sheet body)
    (later : ReadsOtherwise sheet otherwise) : Reads sheet (.conditional gap condition trailing body otherwise) := by
  intro before next whole refuses _
  rw [Draft.text_conditional, List.append_assoc] at whole ⊢
  have inside := takes_braces (before ++ ("@if".toList ++ (gap ++ condition)))
    (otherwise.text sheet.dialect ++ next) isTrailing reads (by
      rw [whole]
      simp only [List.append_assoc])
  have others := later
    (before ++ ("@if".toList ++ (gap ++ condition)) ++ braces trailing (body.text sheet.dialect)) next (by
    rw [whole]
    simp only [List.append_assoc]) refuses
  exact ⟨next, statement_conditional given whole (closes_braces isTrailing _) inside others, rfl⟩

theorem excerpt_of_head (before rest : Text) {name head whites : Text} {parameters : List Parameter}
    (isHead : IsHead sheet.dialect name parameters head) (white : ∀ c ∈ whites, Text.isWhite c = true)
    (whole : sheet.source = before ++ (head ++ whites ++ rest)) :
    sheet.excerpt (head ++ whites ++ rest) rest = ⟨head, .after sheet.filename before⟩ := by
  obtain ⟨c, tail, rfl, -⟩ := exists_head isHead
  have starts (text : Text) : Stops Text.isWhite ("@function".toList ++ text) := Text.stops_cons.2 (by decide)
  have trimmed := isHead.trimmed
  rw [Text.trim, Text.trimStart_of_stops (starts _)] at trimmed
  rw [Sheet.excerpt_append whole, Text.trim, List.append_assoc, Text.trimStart_of_stops (starts _), ← List.append_assoc,
    Text.trimEnd_append_whites _ white, trimmed]
  rfl

/-- A function is its head and a block, with only white characters between the two. -/
theorem statement_of_head {name head whites inside : Text} {parameters : List Parameter} {body : List Statement}
    (isHead : IsHead sheet.dialect name parameters head) (white : ∀ c ∈ whites, Text.isWhite c = true)
    (whole : sheet.source = before ++ (head ++ whites ++ (braces [] inside ++ rest)))
    (block : (block sheet (items sheet)).Takes (braces [] inside) body rest) :
    statement sheet (items sheet) (head ++ whites ++ (braces [] inside ++ rest)) =
      .ok (.function ⟨name, parameters, ⟨head, .after sheet.filename before⟩⟩ body, rest) := by
  have member : ("@function".toList, Directive.function) ∈ directives := .head _
  have excerpt := excerpt_of_head before (braces [] inside ++ rest) isHead white whole
  obtain ⟨site, read⟩ := isHead.read
  have header := Header.ofExcerpt_site read (.after sheet.filename before)
  obtain ⟨c, tail, rfl, blank⟩ := exists_head isHead
  have enclosed : Enclosed none (c :: tail) := isHead.enclosed.of_append (by decide)
  have ends : fromHeaderEnd none (c :: tail ++ whites ++ (braces [] inside ++ rest)) = braces [] inside ++ rest := by
    rw [List.append_assoc, fromHeaderEnd_enclosed enclosed, fromHeaderEnd_enclosed (enclosed_of_whites white)]
    exact if_pos ⟨rfl, .inl rfl⟩
  have cut : "@function".toList ++ c :: tail ++ whites ++ (braces [] inside ++ rest) =
      "@function".toList ++ (c :: tail ++ whites ++ braces [] inside ++ rest) := by
    simp only [List.append_assoc]
  rw [cut] at excerpt ⊢
  refine statement_reads member (stops_of_isBlank blank (by decide) _) ?_
  refine (takes_function (proceeds_items sheet)).2
    ⟨_, c :: tail ++ whites, braces [] inside, rfl, ends, ?_, .inl ⟨rfl, body, block, rfl⟩⟩
  rw [excerpt]
  exact header

theorem reads_function {name head whites : Text} {parameters : List Parameter} {body : Drafts}
    (isHead : IsHead sheet.dialect name parameters head) (white : ∀ c ∈ whites, Text.isWhite c = true)
    (reads : ReadsAll sheet body) : Reads sheet (.function name parameters head whites body) := by
  intro before next whole _ _
  have cut : Draft.text sheet.dialect (.function name parameters head whites body) ++ next =
      head ++ whites ++ (braces [] (body.text sheet.dialect) ++ next) := by
    rw [Draft.text_function]
    simp only [List.append_assoc]
  rw [cut] at whole ⊢
  have inside := takes_braces (before ++ head ++ whites) next isTrivial_nil reads (by
    rw [whole]
    simp only [List.append_assoc])
  exact ⟨next, statement_of_head isHead white whole inside, rfl⟩

theorem word_mem_directives (severity : Severity) : (severity.word, Directive.print severity) ∈ directives := by
  cases severity with
  | debug => exact .tail _ (.tail _ (.tail _ (.head _)))
  | warn => exact .tail _ (.tail _ (.tail _ (.tail _ (.head _))))

/-- A statement begins with the word of a directive or with a sigil. -/
theorem exists_word {draft : Draft} {dialect : Dialect} (proper : draft.Proper dialect) :
    (∃ word kind tail, draft.text dialect = word ++ tail ∧ (word, kind) ∈ directives) ∨
      ∃ tail, draft.text dialect = dialect.sigil :: tail := by
  cases draft with
  | function name parameters head whites body =>
    obtain ⟨isHead, -⟩ := proper
    obtain ⟨c, tail, rfl, -⟩ := exists_head isHead
    exact .inl ⟨"@function".toList, .function, _, List.append_assoc .., .head _⟩
  | returns gap expression => exact .inl ⟨"@return".toList, .returns, _, rfl, .tail _ (.head _)⟩
  | assign name before after expression default => exact .inr ⟨_, rfl⟩
  | conditional gap condition trailing body otherwise =>
    exact .inl ⟨"@if".toList, .conditional, _, List.append_assoc .., .tail _ (.tail _ (.head _))⟩
  | print severity gap expression => exact .inl ⟨severity.word, .print severity, _, rfl, word_mem_directives severity⟩

theorem refuses_else_of_directive {word : Text} {kind : Directive} (member : (word, kind) ∈ directives) (rest : Text) :
    (Parser.keyword "@else").Refuses (word ++ rest) := by
  rw [Parser.refuses_keyword]
  intro left same _
  simp only [directives, List.mem_cons, Prod.mk.injEq, List.not_mem_nil, or_false] at member
  obtain ⟨rfl, -⟩ | ⟨rfl, -⟩ | ⟨rfl, -⟩ | ⟨rfl, -⟩ | ⟨rfl, -⟩ := member <;> cases same

theorem refuses_else_of_proper {draft : Draft} {dialect : Dialect} (proper : draft.Proper dialect) (rest : Text) :
    (Parser.keyword "@else").Refuses (draft.text dialect ++ rest) := by
  obtain ⟨word, kind, tail, same, member⟩ | ⟨tail, same⟩ := exists_word proper
  · rw [same, List.append_assoc]
    exact refuses_else_of_directive member _
  · rw [same]
    refine Parser.refuses_keyword_of_head ?_ (by decide)
    cases dialect <;> decide

theorem stops_of_proper {draft : Draft} {dialect : Dialect} (proper : draft.Proper dialect) (rest : Text)
    {test : Char → Bool}
    (outside : ['@', '$', '!'].any test = false) : Stops test (draft.text dialect ++ rest) := by
  obtain ⟨word, kind, tail, same, member⟩ | ⟨tail, same⟩ := exists_word proper
  · obtain ⟨letters, rfl⟩ := head_of_directive member
    rw [same]
    exact Text.stops_cons.2 (Text.eq_false_of_any outside (by simp))
  · rw [same]
    refine Text.stops_cons.2 (Text.eq_false_of_any outside ?_)
    cases dialect <;> simp [Dialect.sigil]

theorem refuses_else_fill {lead : List Filler} (isLead : IsLead lead) {text : Text}
    (refuses : (Parser.keyword "@else").Refuses (skip text)) :
    (Parser.keyword "@else").Refuses (skip (fill lead ++ text)) := by
  induction lead with
  | nil => exact refuses
  | cons filler lead ih =>
    obtain ⟨rfl | trivia, rest⟩ := List.forall_mem_cons.1 isLead
    · rw [fill_cons]
      change (Parser.keyword "@else").Refuses (skip (';' :: (fill lead ++ text)))
      rw [skip_cons (by decide)]
      exact Parser.refuses_keyword_of_head (by decide) (by decide)
    · rw [fill_cons, filler.skip_text trivia]
      exact ih rest

theorem Finishes.refuses_else {rest : Text} (finishes : Finishes rest) :
    (Parser.keyword "@else").Refuses (Trivia.skip rest) := by
  rw [finishes.skip]
  obtain rfl | brace := finishes
  · exact Parser.refuses_keyword_nil (by decide)
  · obtain ⟨tail, rfl⟩ := List.head?_eq_some_iff.1 brace
    exact Parser.refuses_keyword_of_head (by decide) (by decide)

/-- No branch begins where items do. -/
theorem refuses_else_of_items {drafts : Drafts} (proper : drafts.Proper sheet.dialect) (finishes : Finishes rest) :
    (Parser.keyword "@else").Refuses (skip (drafts.text sheet.dialect ++ rest)) := by
  cases drafts with
  | done lead => exact refuses_else_fill proper finishes.refuses_else
  | item lead first others =>
    obtain ⟨isLead, isFirst, -⟩ := proper
    rw [Drafts.text_item, List.append_assoc, List.append_assoc]
    apply refuses_else_fill isLead
    rw [skip_of_head (stops_of_proper isFirst _ (by decide))]
    exact refuses_else_of_proper isFirst _

theorem ended_of_separated {drafts : Drafts} (proper : drafts.Proper sheet.dialect) (separated : drafts.IsSeparated)
    (finishes : Finishes rest) : Ended sheet (drafts.text sheet.dialect ++ rest) := by
  cases drafts with
  | done lead => exact ended_fill proper (.inr (ended_of_finishes finishes))
  | item lead first others =>
    rw [Drafts.text_item, List.append_assoc]
    exact ended_fill proper.1 (.inl separated)

theorem readsAll_done {lead : List Filler} (isLead : IsLead lead) : ReadsAll sheet (.done lead) := by
  intro before rest _ finishes
  change items sheet (fill lead ++ rest) = .ok ([], rest)
  rw [items_fill isLead, items_eq]
  exact itemsStep_end finishes.skip finishes

theorem readsAll_item {lead : List Filler} {first : Draft} {others : Drafts}
    (proper : (Drafts.item lead first others).Proper sheet.dialect) (head : Reads sheet first)
    (later : ReadsAll sheet others) :
    ReadsAll sheet (.item lead first others) := by
  intro before rest whole finishes
  obtain ⟨isLead, isFirst, separated, isOthers⟩ := proper
  rw [Drafts.text_item] at whole ⊢
  obtain ⟨left, here, same⟩ := head (before ++ fill lead) (others.text sheet.dialect ++ rest) (by
    rw [whole]
    simp only [List.append_assoc]) (refuses_else_of_items isOthers finishes) fun simple =>
      ended_of_separated isOthers (separated simple) finishes
  have tail := later (before ++ fill lead ++ first.text sheet.dialect) rest (by
    rw [whole]
    simp only [List.append_assoc]) finishes
  rw [Takes, ← same] at tail
  have stops (test : Char → Bool) (outside : ['@', '$', '!'].any test = false) :
      Stops test (first.text sheet.dialect ++ (others.text sheet.dialect ++ rest)) := stops_of_proper isFirst _ outside
  have nonempty : first.text sheet.dialect ++ (others.text sheet.dialect ++ rest) ≠ [] := by
    obtain ⟨word, kind, more, text, member⟩ | ⟨more, text⟩ := exists_word isFirst
    · obtain ⟨letters, rfl⟩ := head_of_directive member
      simp [text]
    · simp [text]
  rw [Takes, List.append_assoc, List.append_assoc, items_fill isLead, items_eq,
    itemsStep_statement (skip_of_head (stops _ (by decide))) nonempty
      (fun brace => absurd (stops (· == '}') (by decide) _ brace) (by decide))
      (fun semicolon => absurd (stops (· == ';') (by decide) _ semicolon) (by decide))]
  exact bind_eq_ok.2 ⟨_, left, here, bind_eq_ok.2 ⟨_, rest, tail, rfl⟩⟩

variable (sheet)

mutual

/-- By induction on the draft: each step asks for the bodies and the later branches only. -/
theorem reads_of_proper : ∀ draft : Draft, draft.Proper sheet.dialect → Reads sheet draft
  | .function _ _ _ _ body, proper => reads_function proper.1 proper.2.1 (readsAll_of_proper body proper.2.2)
  | .returns _ _, proper => fun _ _ whole _ ended =>
    reads_single .returns (.tail _ (.head _)) (fun _ => rfl) proper whole (ended trivial)
  | .assign _ _ _ _ _, proper => fun _ _ whole _ ended => reads_assign proper whole (ended trivial)
  | .conditional _ _ _ body otherwise, proper =>
    reads_conditional proper.1 proper.2.1 (readsAll_of_proper body proper.2.2.1)
      (readsOtherwise_of_proper otherwise proper.2.2.2)
  | .print severity _ _, proper => fun _ _ whole _ ended =>
    reads_single (.print · severity ·) (word_mem_directives severity) (fun _ => rfl) proper whole (ended trivial)

theorem readsOtherwise_of_proper : ∀ draft : DraftOtherwise, draft.Proper sheet.dialect → ReadsOtherwise sheet draft
  | .nothing, _ => readsOtherwise_nothing
  | .block _ _ body, proper => readsOtherwise_block proper.1 proper.2.1 (readsAll_of_proper body proper.2.2)
  | .condition _ _ _ _ _ body otherwise, proper =>
    readsOtherwise_condition proper.1 proper.2.1 proper.2.2.1 proper.2.2.2.1 proper.2.2.2.2.1
      (readsAll_of_proper body proper.2.2.2.2.2.1) (readsOtherwise_of_proper otherwise proper.2.2.2.2.2.2)

theorem readsAll_of_proper : ∀ drafts : Drafts, drafts.Proper sheet.dialect → ReadsAll sheet drafts
  | .done _, proper => readsAll_done proper
  | .item _ first others, proper =>
    readsAll_item proper (reads_of_proper first proper.2.1) (readsAll_of_proper others proper.2.2.2)

end

end
end StyleScript.Statement.Grammar

namespace StyleScript.Sheet
open Statement.Grammar Expr.Grammar

/-- A proper draft is read as its tree, in both dialects and with any filler in its gaps. -/
theorem statements_of_draft {dialect : Dialect} {drafts : Drafts} (proper : drafts.Proper dialect) (filename : Text) :
    (⟨filename, dialect, drafts.text dialect⟩ : Sheet).statements = .ok (drafts.trees dialect filename []) := by
  apply statements_eq_ok.2
  have whole : drafts.text dialect = [] ++ (drafts.text dialect ++ []) := (List.append_nil _).symm
  exact readsAll_of_proper ⟨filename, dialect, drafts.text dialect⟩ drafts proper [] [] whole (.inl rfl)

theorem canonical_of_reads {text : Text} (reads : (Expr.parser text).toOption.map Prod.snd = some [])
    (visible : Text.Stops Text.isBlank text) : Canonical text := by
  obtain ⟨result, parsed, rest⟩ := Reading.ok_of_toOption_map reads
  refine ⟨⟨result.1, ?_⟩, visible⟩
  rw [parsed, ← rest]

/-- A function with a comment after its semicolon, a default, and a condition with another branch. -/
theorem statements_of_draft_branches :
    (⟨"main.scss".toList, .standard,
        "@function f($x) \x7b@return $x; // c\n\x7d$a:1 !default;@if $a\x7b@warn $a\x7d@else if 1\x7b\x7d".toList⟩ :
          Sheet).statements =
      .ok [.function ⟨['f'], [⟨['x'], none⟩], ⟨"@function f($x)".toList, ⟨"main.scss".toList, 1⟩⟩⟩
          [.returns ⟨"@return $x".toList, ⟨"main.scss".toList, 1⟩⟩ "$x".toList],
        .assign ⟨"$a:1 !default".toList, ⟨"main.scss".toList, 2⟩⟩ ['a'] ['1'] true,
        .conditional ⟨"@if $a".toList, ⟨"main.scss".toList, 2⟩⟩ "$a".toList
          [.print ⟨"@warn $a".toList, ⟨"main.scss".toList, 2⟩⟩ .warn "$a".toList]
          (.condition ⟨"main.scss".toList, 2⟩ ['1'] [] .nothing)] := by
  have visible {c : Char} {text : Text} (same : Text.isBlank c = false) : Text.Stops Text.isBlank (c :: text) :=
    Text.stops_cons.2 same
  have nothing : IsLead [] := List.forall_mem_nil _
  have empty : IsTrivial [] := List.forall_mem_nil _
  have one : Canonical ['1'] := canonical_of_reads (by decide +kernel) (visible (by decide))
  have reference (c : Char) (reads : (Expr.parser ['$', c]).toOption.map Prod.snd = some []) : IsGiven [' '] ['$', c] :=
    ⟨by simp [Text.isBlank], Text.stops_cons.2 (by decide), canonical_of_reads reads (visible (by decide))⟩
  have given : IsGiven [' '] ['1'] := ⟨by simp [Text.isBlank], Text.stops_cons.2 (by decide), one⟩
  have head : IsHead .standard ['f'] [⟨['x'], none⟩] "@function f($x)".toList := by
    refine ⟨by decide, by simp [Enclosed, quoteAfter], ⟨"main.scss".toList, 1⟩, ?_⟩
    apply Reading.eq_ok_of_toOption
    decide +kernel
  have whites : ∀ c ∈ [' '], Text.isWhite c = true := by simp [Text.isWhite]
  have markable : IsMarkable ['1'] := fun _ _ ends => absurd ends.1 (by decide)
  have assigned : IsAssigned ['a'] [] [] ['1'] (some [' ']) :=
    ⟨by decide, by simp, by simp, one, by simp [Text.isBlank, markable]⟩
  have proper : Drafts.Proper .standard (.item [] (.function ['f'] [⟨['x'], none⟩] "@function f($x)".toList [' ']
        (.item [] (.returns [' '] "$x".toList) (.done [.semicolon, .blank ' ', .line " c".toList])))
      (.item [] (.assign ['a'] [] [] ['1'] (some [' ']))
        (.item [.semicolon] (.conditional [' '] "$a".toList [] (.item [] (.print .warn [' '] "$a".toList) (.done []))
          (.condition [] [.blank ' '] [' '] ['1'] [] (.done []) .nothing)) (.done [])))) := by
    refine ⟨nothing, ⟨head, whites, nothing, reference 'x' (by decide +kernel), fun _ => trivial, ?_⟩, False.elim, ?_⟩
    · exact show IsLead _ by simp [IsLead, Filler.IsTrivia, Text.isBlank]
    · refine ⟨nothing, assigned, fun _ => List.mem_cons_self, by simp [IsLead], ?_, False.elim, nothing⟩
      refine ⟨reference 'a' (by decide +kernel), empty,
        ⟨nothing, reference 'a' (by decide +kernel), fun _ => trivial, nothing⟩, ?_⟩
      exact ⟨empty, List.cons_ne_nil _ _, by simp [IsTrivial, Filler.IsTrivia, Text.isBlank], given, empty,
        nothing, trivial⟩
  exact statements_of_draft proper "main.scss".toList

/-- Two things that are kept out of drafts. The bare word `not` is an expression by itself, but the
mark of a default after it is read as a variable that `not` is applied to. And white characters
other than blanks are no trivia. -/
theorem draft_limits :
    Canonical "not".toList ∧
      (Drafts.item [] (.assign ['a'] [] [' '] "not".toList (some [' '])) (.done [.semicolon])).text .standard =
        "$a: not !default;".toList ∧
      (⟨"main.scss".toList, .standard, "$a: not !default;".toList⟩ : Sheet).statements =
        .ok [.assign ⟨"$a: not !default".toList, ⟨"main.scss".toList, 1⟩⟩ ['a'] "not !default".toList false] ∧
      (⟨"main.scss".toList, .standard, "$a: not !default;".toList⟩ : Sheet).statements ≠
        .ok ((Drafts.item [] (.assign ['a'] [] [' '] "not".toList (some [' '])) (.done [.semicolon])).trees .standard
          "main.scss".toList []) ∧
      Text.isWhite '\u00a0' = true ∧
      (⟨"main.scss".toList, .standard, "$a: 1;\u00a0".toList⟩ : Sheet).statements.toOption = none := by
  have bare : Canonical "not".toList := canonical_of_reads (by decide +kernel) (Text.stops_cons.2 (by decide))
  have whole : Canonical "not !default".toList := canonical_of_reads (by decide +kernel) (Text.stops_cons.2 (by decide))
  have assigned : IsAssigned ['a'] [] [' '] "not !default".toList none :=
    ⟨by decide, by simp, by simp [Text.isBlank], whole, by simp⟩
  have proper : Drafts.Proper .standard
      (.item [] (.assign ['a'] [] [' '] "not !default".toList none) (.done [.semicolon])) :=
    ⟨List.forall_mem_nil _, assigned, fun _ => trivial, by simp [IsLead, Drafts.Proper]⟩
  have reads : (⟨"main.scss".toList, .standard, "$a: not !default;".toList⟩ : Sheet).statements =
      .ok [.assign ⟨"$a: not !default".toList, ⟨"main.scss".toList, 1⟩⟩ ['a'] "not !default".toList false] :=
    statements_eq_ok.2 (readsAll_of_proper ⟨"main.scss".toList, .standard, "$a: not !default;".toList⟩ _ proper [] []
      rfl (.inl rfl))
  have unread : (⟨"main.scss".toList, .standard, "$a: 1;\u00a0".toList⟩ : Sheet).statements.toOption = none := by
    decide +kernel
  refine ⟨bare, rfl, reads, fun same => ?_, by decide, unread⟩
  rw [reads] at same
  cases same

end StyleScript.Sheet
