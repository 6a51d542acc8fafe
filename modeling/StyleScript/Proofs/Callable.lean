import StyleScript.Proofs.Endings
import StyleScript.Proofs.Heads
import StyleScript.Proofs.RoundTrip

/-! Which declared functions can be called by the names that they were declared with. A declaration takes any
letters, digits, dashes and underscores for a name; before the parenthesis of a call there stands an identifier,
which is none of the constants, and `not` before one argument in parentheses is the operator. -/

namespace StyleScript

namespace Expr.Grammar
open Reading StyleScript.Parser Text

/-- Before so many arguments in parentheses a name stands for a function. -/
structure Callable (name : Text) (count : Nat) : Prop where
  identifier : Name.isIdentifier name = true
  not_constant : name ∉ constants.map Prod.fst
  not_operator : name = "not".toList → count ≠ 1

/-- A call as it is written, with blanks around the arguments. -/
def callText (name : Text) (arguments : List Argument) (closing : Text) : Text :=
  name ++ '(' :: (argumentList arguments ++ (closing ++ [')']))

theorem stops_paren (text : Text) : Stops Name.continues ('(' :: text) := stops_cons.2 (by decide)

theorem Callable.stands {name closing : Text} {arguments : List Argument} (callable : Callable name arguments.length)
    (proper : ∀ argument ∈ arguments, argument.Proper) (blank : ∀ c ∈ closing, isBlank c = true) :
    Stands (callText name arguments closing) (.call name (arguments.map Argument.text)) 0 := by
  intro rest settled
  apply unary_of_token (call_fits callable.identifier callable.not_constant proper blank rest)
  -- After the word `not` there comes no group, as there are no arguments or several.
  intro left same stops
  rw [List.append_assoc] at same
  obtain ⟨word, written⟩ := name_eq_of_append callable.identifier (by decide) (stops_paren _) stops same
  obtain ⟨taken, final, split, blankFinal, reads⟩ := takes_argumentList proper blank
  have inside : left = '(' :: (taken ++ (final ++ ')' :: rest)) := by
    rw [← written, ← List.append_assoc, split]
    simp
  rw [inside, refuses_unary_paren]
  apply (refuses_group_iff (reads rest) (unparenthesized_append blankFinal rest)).2
  rw [List.length_map]
  exact callable.not_operator word

/-- A chain with a call at its root has one operand only. -/
theorem chain_takes_call {σ : Type} {join : σ → Expr → Expr → Expr} {operator : Parser σ} {operand : Parser Expr}
    (symbol : operator.Progresses) (proceeds : operand.Proceeds)
    (other : ∀ joined left right name values, join joined left right ≠ .call name values)
    {taken rest name : Text} {values : List Text}
    (takes : (chain join operator operand).Takes taken (.call name values) rest) :
    operand.Takes taken (.call name values) rest := by
  obtain ⟨start, others, first, second, rfl, reads, items, root⟩ := (takes_chain symbol proceeds).1 takes
  rcases List.eq_nil_or_concat others with rfl | ⟨others, last, rfl⟩
  · obtain ⟨-, rfl, -⟩ | ⟨_, _, _, _, impossible, -⟩ := (takes_many (progresses_item symbol proceeds)).1 items
    · cases root
      rwa [List.append_nil, List.nil_append] at *
    · cases impossible
  · rw [List.concat_eq_append, List.foldl_append] at root
    exact absurd root.symm (other _ _ _ _ _)

theorem unary_takes_call {taken rest name : Text} {values : List Text}
    (takes : parser.Takes taken (.call name values) rest) : (unary parser).Takes taken (.call name values) rest := by
  have proceeds := progresses_expr.proceeds
  rw [parser_eq] at takes
  have takes := chain_takes_call (progresses_keyword (by decide)) (progresses_conjunction proceeds).proceeds
    (fun _ _ _ _ _ => Expr.noConfusion) takes
  have takes := chain_takes_call (progresses_keyword (by decide)) (progresses_comparison proceeds).proceeds
    (fun _ _ _ _ _ => Expr.noConfusion) takes
  obtain ⟨takes, -⟩ | ⟨_, _, _, _, _, -, -, -, impossible⟩ := (takes_comparison proceeds).1 takes
  · have takes := chain_takes_call progresses_sumOperator (progresses_product proceeds).proceeds
      (fun _ _ _ _ _ => Expr.noConfusion) takes
    exact chain_takes_call progresses_productOperator (progresses_unary proceeds).proceeds
      (fun _ _ _ _ _ => Expr.noConfusion) takes
  · cases impossible

theorem call_of_token {c : Char} {tail rest name : Text} {values : List Text} (letter : Name.continues c = true)
    (takes : (token parser).Takes (c :: tail) (.call name values) rest) :
    constant.Refuses (c :: tail ++ rest) ∧ (call parser).Takes (c :: tail) (.call name values) rest := by
  obtain number | quote | sigil | paren | word | call | ⟨-, -, bare⟩ := (takes_token progresses_expr.proceeds).1 takes
  · obtain ⟨_, _, impossible, -⟩ := takes_number.1 number
    cases impossible
  · obtain ⟨_, _, -, -, -, impossible⟩ := takes_quoted.1 quote
    cases impossible
  · obtain ⟨_, _, -, -, -, impossible, -⟩ := takes_reference.1 sigil
    cases impossible
  · obtain ⟨inside, gap, same, -⟩ := (takes_group progresses_expr.proceeds).1 paren
    cases same
    cases letter
  · obtain ⟨member, -⟩ := takes_constant.1 word
    simp [constants] at member
  · exact call
  · obtain ⟨-, impossible, -⟩ := takes_bareWord.1 bare
    cases impossible

/-- Where a text begins with a character of a name, no operator and no blank stands before the call. -/
theorem call_of_unary {c : Char} {text taken rest name : Text} {values : List Text} (letter : Name.continues c = true)
    (same : c :: text = taken ++ rest) (takes : (unary parser).Takes taken (.call name values) rest) :
    (inverted (unary parser)).Refuses (taken ++ rest) ∧ constant.Refuses (taken ++ rest) ∧
      (call parser).Takes taken (.call name values) rest := by
  have proceeds := progresses_expr.proceeds
  obtain negation | inversion | ⟨refuses, here⟩ := (takes_unary proceeds).1 takes
  · obtain ⟨_, _, _, -, -, -, impossible⟩ := (takes_negated (progresses_unary proceeds).proceeds).1 negation
    cases impossible
  · obtain ⟨_, _, _, -, -, -, -, impossible⟩ := (takes_inverted (progresses_unary proceeds).proceeds).1 inversion
    cases impossible
  obtain ⟨gap, body, rfl, blank, -, token⟩ := (takes_atom proceeds).1 here
  obtain rfl : gap = [] := by
    rcases gap with _ | ⟨d, gap⟩
    · rfl
    · cases (List.cons.inj same).1
      have white := isWhite_of_isBlank (blank c List.mem_cons_self)
      rw [isWhite_of_continues letter] at white
      cases white
  obtain ⟨d, body, rfl⟩ := List.exists_cons_of_ne_nil ((progresses_token proceeds).takes_ne_nil token)
  cases (List.cons.inj same).1
  exact ⟨refuses, call_of_token letter token⟩

theorem callable_of_ofText {name closing : Text} {arguments : List Argument} (nonempty : name ≠ [])
    (continues : ∀ c ∈ name, Name.continues c = true)
    (reads : ofText (callText name arguments closing) = .ok (.call name (arguments.map Argument.text))) :
    Callable name arguments.length := by
  obtain ⟨c, tail, rfl⟩ := List.exists_cons_of_ne_nil nonempty
  obtain ⟨taken, rest, same, takes, -⟩ := exists_takes_of_ofText reads
  obtain ⟨refuses, other, call⟩ := call_of_unary (continues c List.mem_cons_self) same (unary_takes_call takes)
  obtain ⟨word, values, inside, gap, rfl, identifier, blankGap, given, root⟩ :=
    (takes_call progresses_expr.proceeds).1 call
  cases root
  have text : c :: tail ++ '(' :: (inside ++ (gap ++ [')'])) ++ rest =
      c :: tail ++ '(' :: (inside ++ (gap ++ ')' :: rest)) := by
    simp
  rw [text] at refuses other
  refine ⟨identifier, fun member => ?_, fun operator => ?_⟩
  · obtain ⟨⟨_, meaning⟩, found, rfl⟩ := List.mem_map.1 member
    exact not_refuses (takes_constant.2 ⟨found, stops_paren _⟩) other
  · have operand : (unary parser).Refuses ('(' :: (inside ++ (gap ++ ')' :: rest))) := by
      refine refuses_inverted.1 refuses _ ?_ (stops_paren _)
      have visible : Stops isBlank (c :: tail ++ '(' :: (inside ++ (gap ++ ')' :: rest))) := by
        rw [operator]
        exact stops_cons.2 (by decide)
      rw [← operator]
      exact dropBlanks_append (List.forall_mem_nil _) visible
    rw [← List.length_map]
    exact (refuses_group_iff given (unparenthesized_append blankGap rest)).1 (refuses_unary_paren.1 operand)

theorem ofText_callText_iff {name closing : Text} {arguments : List Argument} (nonempty : name ≠ [])
    (continues : ∀ c ∈ name, Name.continues c = true) (proper : ∀ argument ∈ arguments, argument.Proper)
    (blank : ∀ c ∈ closing, isBlank c = true) :
    ofText (callText name arguments closing) = .ok (.call name (arguments.map Argument.text)) ↔
      Callable name arguments.length := by
  refine ⟨callable_of_ofText nonempty continues, fun callable => ?_⟩
  have stands := (callable.stands proper blank).mono (Nat.zero_le 5)
  exact ofText_of_takes (stands.fits_expr [] (settled_of_closes closes_nil 5))

end Expr.Grammar

open Expr.Grammar

theorem evaluate_of_call {text name : Text} {arguments : List Text} (reads : Expr.ofText text = .ok (.call name arguments))
    {context : Context} {definition : Definition} (found : context.findFunction (Name.functionKey name) = some definition)
    (call : Caller) (site : Site) : evaluate call site text context = call definition arguments site context := by
  have finds : Run.read (·.findFunction (Name.functionKey name)) context = (.done (some definition), context) := by
    rw [Run.read, found]
  rw [evaluate, Expr.read, reads]
  exact Run.bind_of_done finds _

/-- A function is called by the name that it was declared with if and only if that is an identifier, none of the
constants, and not `not` before one argument. Then the call goes to the definition wherever that was registered and
nothing hides it. -/
theorem Header.called_by_name {dialect : Dialect} {excerpt : Excerpt} {header : Header} {name rest : Text}
    {list : Option Text} (declares : signature excerpt.source = .ok ((name, list), rest))
    (accepted : ofExcerpt dialect excerpt = .ok header) {arguments : List Argument} {closing : Text}
    (proper : ∀ argument ∈ arguments, argument.Proper) (blank : ∀ c ∈ closing, Text.isBlank c = true) :
    let text := callText name arguments closing
    let given := arguments.map Argument.text
    (Expr.ofText text = .ok (.call name given) ↔ Callable name arguments.length) ∧
      (Callable name arguments.length → ∀ (call : Caller) (body : List Statement),
        (∀ context, ∃ registered, (Statement.function header body).run call context = (.done .normal, registered) ∧
          registered.findFunction header.name = some ⟨header, body⟩) ∧
        ∀ (context : Context) (site : Site), context.findFunction header.name = some ⟨header, body⟩ →
          evaluate call site text context = call ⟨header, body⟩ given site context) := by
  intro text given
  obtain ⟨spells, -⟩ := spells_of_signature declares
  have reads := ofText_callText_iff spells.name_ne_nil spells.continues proper blank
  obtain ⟨_, _, _, parameters, again, -, rfl⟩ := ofExcerpt_eq_ok.1 accepted
  cases declares.symm.trans again
  refine ⟨reads, fun callable call body => ⟨fun context => ⟨_, rfl, ?_⟩, fun context site found => ?_⟩⟩
  · rw [Context.findFunction_declare, if_pos rfl]
  · exact evaluate_of_call (reads.2 callable) found call site

/-- A name in mixed case with a dash, called with a blank before each comma. -/
theorem Header.called_by_name_dashed :
    let excerpt : Excerpt := ⟨"@function Do-it($a, $b)".toList, ⟨['m'], 1⟩⟩
    let header : Header := ⟨"do_it".toList, [⟨['a'], none⟩, ⟨['b'], none⟩], excerpt⟩
    Header.ofExcerpt .standard excerpt = .ok header ∧
      Expr.ofText "Do-it(x , $y)".toList = .ok (.call "Do-it".toList [['x'], "$y".toList]) ∧
      ∀ call : Caller, evaluate call ⟨['m'], 2⟩ "Do-it(x , $y)".toList (Context.empty.declare header.name ⟨header, []⟩) =
        call ⟨header, []⟩ [['x'], "$y".toList] ⟨['m'], 2⟩ (Context.empty.declare header.name ⟨header, []⟩) := by
  intro excerpt header
  have declares : signature excerpt.source = .ok (("Do-it".toList, some "$a, $b".toList), []) := by
    apply Reading.eq_ok_of_toOption
    decide +kernel
  have accepted : ofExcerpt .standard excerpt = .ok header := by
    apply Reading.eq_ok_of_toOption
    decide +kernel
  have word : Expr.parser ['x'] = .ok (.literal (.string ['x'] false), []) := by
    apply Reading.eq_ok_of_toOption
    decide +kernel
  have sigiled : Expr.parser "$y".toList = .ok (.reference ['y'], []) := by
    apply Reading.eq_ok_of_toOption
    decide +kernel
  have proper : ∀ argument ∈ [Argument.mk [] ['x'] [' '], ⟨[' '], "$y".toList, []⟩], argument.Proper := by
    rintro argument (_ | ⟨_, _ | ⟨_, ⟨⟩⟩⟩)
    · exact ⟨⟨⟨_, word⟩, Text.stops_cons.2 (by decide)⟩, by simp, by simp [Text.isBlank]⟩
    · exact ⟨⟨⟨_, sigiled⟩, Text.stops_cons.2 (by decide)⟩, by simp [Text.isBlank], by simp⟩
  have callable : Callable "Do-it".toList 2 := ⟨by decide, by decide, by decide⟩
  obtain ⟨reads, calls⟩ := Header.called_by_name declares accepted proper (List.forall_mem_nil _)
  exact ⟨accepted, reads.2 callable, fun call => (calls callable call []).2 _ _ rfl⟩

/-- A function may be declared with the name of a constant, which no call can then use. -/
theorem Header.not_called_by_every_name :
    ¬ ∀ (dialect : Dialect) (excerpt : Excerpt) (header : Header) (name rest : Text) (list : Option Text),
      signature excerpt.source = .ok ((name, list), rest) → ofExcerpt dialect excerpt = .ok header →
      ∀ (arguments : List Argument) (closing : Text), (∀ argument ∈ arguments, argument.Proper) →
        (∀ c ∈ closing, Text.isBlank c = true) →
        Expr.ofText (callText name arguments closing) = .ok (.call name (arguments.map Argument.text)) := by
  intro called
  let excerpt : Excerpt := ⟨"@function true()".toList, ⟨['m'], 1⟩⟩
  have declares : signature excerpt.source = .ok (("true".toList, some []), []) := by
    apply Reading.eq_ok_of_toOption
    decide +kernel
  have accepted : ofExcerpt .standard excerpt = .ok ⟨"true".toList, [], excerpt⟩ := by
    apply Reading.eq_ok_of_toOption
    decide +kernel
  have reads := called _ _ _ _ _ _ declares accepted [] [] (List.forall_mem_nil _) (List.forall_mem_nil _)
  have fails : (Expr.ofText (callText "true".toList [] [])).toOption = none := by decide +kernel
  rw [reads] at fails
  cases fails

end StyleScript
