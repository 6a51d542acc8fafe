import StyleScript.Proofs.Written

/-! A written expression is read back as its tree. The induction is on what is written. A text of
some rank stands wherever operands of that rank may stand, and parentheses let it stand
everywhere. -/

namespace StyleScript.Expr.Grammar
open Reading StyleScript.Parser Text

/-- In what way the grammar takes a text whose outermost operator has a rank. -/
def Stands (text : Text) (expr : Expr) : Nat → Prop
  | 0 => Fits 0 (unary parser) text expr
  | 1 => Leads .binary productOperator (unary parser) .product text expr
  | 2 => Leads .binary sumOperator (product parser) .sum text expr
  | 3 => Fits 3 (comparison parser) text expr
  | 4 => Leads (fun _ => .both) (keyword "and") (comparison parser) .conjunction text expr
  | _ + 5 => Leads (fun _ => .either) (keyword "or") (conjunction parser) .disjunction text expr

theorem Stands.fits_product {text : Text} {expr : Expr} (stands : Stands text expr 1) :
    Fits 1 (product parser) text expr :=
  fits_of_leads joins_product stands

theorem Stands.fits_sum {text : Text} {expr : Expr} (stands : Stands text expr 2) : Fits 2 (sum parser) text expr :=
  fits_of_leads joins_sum stands

theorem Stands.fits_conjunction {text : Text} {expr : Expr} (stands : Stands text expr 4) :
    Fits 4 (conjunction parser) text expr :=
  fits_of_leads joins_conjunction stands

theorem Stands.fits_expr {text : Text} {expr : Expr} (stands : Stands text expr 5) : Fits 5 parser text expr := by
  have fits : Fits 5 (disjunction parser) text expr := fits_of_leads joins_disjunction stands
  rw [parser_eq]
  exact fits

theorem Stands.succ {text : Text} {expr : Expr} : ∀ {rank}, Stands text expr rank → Stands text expr (rank + 1)
  | 0, stands => leads_of_fits stands
  | 1, stands => leads_of_fits stands.fits_product
  | 2, stands => fits_alone stands.fits_sum
  | 3, stands => leads_of_fits stands
  | 4, stands => leads_of_fits stands.fits_conjunction
  | _ + 5, stands => stands

theorem Stands.mono {text : Text} {expr : Expr} {rank limit : Nat} (stands : Stands text expr rank)
    (below : rank ≤ limit) : Stands text expr limit := by
  induction below with
  | refl => exact stands
  | step _ ih => exact ih.succ

theorem settled_of_closes {rest : Text} (closes : Closes rest) (rank : Nat) : Settled rank rest :=
  ⟨closes.stops (by decide), fun layer _ => closes.ends layer⟩

theorem stands_group {text : Text} {expr : Expr} (stands : Stands text expr 5) :
    Stands ('(' :: (text ++ [')'])) expr 0 := by
  intro rest _
  have proceeds := progresses_expr.proceeds
  have closes : Closes (')' :: rest) := closes_of_head (c := ')') (by decide) rfl
  have inside := stands.fits_expr (')' :: rest) (settled_of_closes closes 5)
  have here : (group parser).Takes ('(' :: (text ++ [')'])) expr rest := by
    exact (takes_group proceeds).2 ⟨text, [], rfl, List.forall_mem_nil _, inside⟩
  apply unary_of_token_head _ (by decide)
  exact (takes_token proceeds).2 (.inr (.inr (.inr (.inl here))))

open Written in
/-- In its place an operand stands as the place demands. -/
theorem stands_enclose {text : Text} {expr : Expr} {rank : Nat} (stands : Stands text expr rank) (bounded : rank ≤ 5)
    (limit : Nat) : Stands (enclose rank limit text) expr limit := by
  rw [enclose]
  split
  next below => exact stands.mono below
  next => exact (stands_group (stands.mono bounded)).mono (Nat.zero_le _)

theorem spaced_operator {operator : Operator} {parser : Parser Operator} {before after : Text}
    (gapBefore : Written.IsGap before) (gapAfter : Written.IsGap after)
    (symbol : ∀ c rest, isBlank c = true → parser.Takes operator.symbol operator (c :: rest)) :
    Spaced parser operator before operator.symbol after :=
  ⟨gapBefore.2, gapAfter.2, gapBefore.1, gapAfter.1, symbol⟩

theorem product_symbol {operator : Operator} (level : operator.layer = .product) (rest : Text) :
    productOperator.Takes operator.symbol operator rest := by
  rw [takes_productOperator]
  cases operator <;> cases level <;> decide

theorem sum_symbol {operator : Operator} (level : operator.layer = .sum) (rest : Text) :
    sumOperator.Takes operator.symbol operator rest := by
  rw [takes_sumOperator]
  cases operator <;> cases level <;> decide

theorem comparison_symbol {operator : Operator} (level : operator.layer = .comparison) {c : Char}
    (blank : isBlank c = true) (rest : Text) : comparisonOperator.Takes operator.symbol operator (c :: rest) := by
  rw [takes_comparisonOperator]
  constructor
  · cases operator <;> cases level <;> decide
  · rintro - ⟨⟩
    cases blank

theorem spaced_keyword {word : String} {before after : Text} (gapBefore : Written.IsGap before)
    (gapAfter : Written.IsGap after) : Spaced (keyword word) () before word.toList after where
  blankBefore := gapBefore.2
  blankAfter := gapAfter.2
  nonemptyBefore := gapBefore.1
  nonemptyAfter := gapAfter.1
  symbol c rest blank := by
    rw [takes_keyword]
    exact ⟨rfl, stops_of_isBlank blank (by decide) rest⟩

theorem stands_binary {operator : Operator} {before after left right : Text} {leftExpr rightExpr : Expr}
    (gapBefore : Written.IsGap before) (gapAfter : Written.IsGap after)
    (leftStands : Stands left leftExpr operator.layer.left) (rightStands : Stands right rightExpr operator.layer.rank) :
    Stands (left ++ (before ++ (operator.symbol ++ (after ++ right)))) (.binary operator leftExpr rightExpr)
      (operator.layer.rank + 1) := by
  have unindented := unindented_unary progresses_expr.proceeds
  cases level : operator.layer with
  | product =>
    rw [level] at leftStands rightStands
    have spaced := spaced_operator gapBefore gapAfter fun c rest _ => product_symbol level (c :: rest)
    exact leads_item joins_product spaced unindented leftStands rightStands
  | sum =>
    rw [level] at leftStands rightStands
    have spaced := spaced_operator gapBefore gapAfter fun c rest _ => sum_symbol level (c :: rest)
    exact leads_item joins_sum spaced unindented.bind leftStands rightStands.fits_product
  | comparison =>
    rw [level] at leftStands rightStands
    have spaced := spaced_operator gapBefore gapAfter fun c rest blank => comparison_symbol level blank rest
    exact fits_compared spaced leftStands.fits_sum rightStands.fits_sum
  | conjunction => cases operator <;> cases level
  | disjunction => cases operator <;> cases level

theorem stands_both {before after left right : Text} {leftExpr rightExpr : Expr} (gapBefore : Written.IsGap before)
    (gapAfter : Written.IsGap after) (leftStands : Stands left leftExpr 4) (rightStands : Stands right rightExpr 3) :
    Stands (left ++ (before ++ ("and".toList ++ (after ++ right)))) (.both leftExpr rightExpr) 4 := by
  have unindented : Unindented (comparison parser) := (unindented_unary progresses_expr.proceeds).bind.bind.bind
  exact leads_item joins_conjunction (spaced_keyword gapBefore gapAfter) unindented leftStands rightStands

theorem stands_either {before after left right : Text} {leftExpr rightExpr : Expr} (gapBefore : Written.IsGap before)
    (gapAfter : Written.IsGap after) (leftStands : Stands left leftExpr 5) (rightStands : Stands right rightExpr 4) :
    Stands (left ++ (before ++ ("or".toList ++ (after ++ right)))) (.either leftExpr rightExpr) 5 := by
  have unindented : Unindented (conjunction parser) := (unindented_unary progresses_expr.proceeds).bind.bind.bind.bind
  exact leads_item joins_disjunction (spaced_keyword gapBefore gapAfter) unindented leftStands
    rightStands.fits_conjunction

theorem stands_negate {text : Text} {expr : Expr} (stands : Stands text expr 0) :
    Stands ('-' :: text) (.negate expr) 0 := by
  intro rest settled
  have operand := (progresses_unary progresses_expr.proceeds).proceeds
  have here : (negated (unary parser)).Takes ('-' :: text) (.negate expr) rest := by
    exact (takes_negated operand).2 ⟨[], text, expr, rfl, List.forall_mem_nil _, stands rest settled, rfl⟩
  exact (takes_unary progresses_expr.proceeds).2 (.inl here)

theorem stands_not {gap text : Text} {expr : Expr} (isGap : Written.IsGap gap) (stands : Stands text expr 0) :
    Stands ("not".toList ++ (gap ++ text)) (.not expr) 0 := by
  intro rest settled
  have operand := (progresses_unary progresses_expr.proceeds).proceeds
  have reads := (unindented_unary progresses_expr.proceeds).takes isGap.2 (stands rest settled)
  have stops : Stops Name.continues (gap ++ text ++ rest) := by
    obtain ⟨nonempty, blank⟩ := isGap
    cases gap with
    | nil => exact absurd rfl nonempty
    | cons c gap => exact stops_of_isBlank (blank c List.mem_cons_self) (by decide) _
  have here : (inverted (unary parser)).Takes ("not".toList ++ (gap ++ text)) (.not expr) rest := by
    exact (takes_inverted operand).2 ⟨[], gap ++ text, expr, rfl, List.forall_mem_nil _, stops, reads, rfl⟩
  exact (takes_unary progresses_expr.proceeds).2 (.inr (.inl here))

end StyleScript.Expr.Grammar

namespace StyleScript.Expr.Written
open Reading StyleScript.Parser Text Grammar

theorem rank_le (written : Written) : written.rank ≤ 5 := by
  have bounded (layer : Layer) : layer.rank < 5 := by cases layer <;> decide
  cases written with
  | both => exact bounded .conjunction
  | either => exact bounded .disjunction
  | binary operator => exact bounded operator.layer
  | _ => exact Nat.zero_le 5

theorem not_mem_constants {name : Text} (free : name ∉ reserved) : name ∉ constants.map Prod.fst := by
  intro member
  apply free
  simp only [constants, List.map_cons, List.map_nil, List.mem_cons, List.not_mem_nil, or_false] at member
  simp only [reserved, List.mem_cons, List.not_mem_nil, or_false]
  obtain same | same | same := member
  · exact .inl same
  · exact .inr (.inl same)
  · exact .inr (.inr (.inl same))

theorem ne_not {name : Text} (free : name ∉ reserved) : name ≠ "not".toList := by
  intro same
  rw [same] at free
  exact free (by decide)

theorem stands_constant {word : Text} {expr : Expr} (member : (word, expr) ∈ constants) : Stands word expr 0 := by
  intro rest settled
  have here : constant.Takes word expr rest := takes_constant.2 ⟨member, settled.apart.stops_name⟩
  have name : Name.isIdentifier word = true ∧ word ≠ "not".toList := by
    simp only [constants, List.mem_cons, Prod.mk.injEq, List.not_mem_nil, or_false] at member
    obtain ⟨same, -⟩ | ⟨same, -⟩ | ⟨same, -⟩ := member <;> rw [same] <;> decide
  apply unary_of_token_word name.1 name.2 settled.apart
  exact (takes_token progresses_expr.proceeds).2 (.inr (.inr (.inr (.inr (.inl here)))))

theorem stands_enclosed {operand : Written} (stands : Stands operand.text operand.expr operand.rank) (limit : Nat) :
    Stands (enclose operand.rank limit operand.text) operand.expr limit :=
  stands_enclose stands operand.rank_le limit

theorem stands {written : Written} (proper : written.Proper) : Stands written.text written.expr written.rank := by
  have proceeds := progresses_expr.proceeds
  induction written with
  | number spelling unit =>
    intro rest settled
    have here := number_fits settled.apart proper.1 proper.2
    obtain ⟨c, tail, same, starts⟩ := progresses_number.head (fun _ => refuses_number_of_head) here
    rw [same] at here
    change (unary parser).Takes (spelling.text ++ unit) _ rest
    rw [same]
    apply unary_of_token_head ((takes_token proceeds).2 (.inl here))
    rintro rfl
    cases starts
  | quoted quote text =>
    intro rest settled
    have here : Takes Grammar.quoted (quote :: (text ++ [quote])) (.literal (.string text true)) rest :=
      takes_quoted.2 ⟨quote, text, proper.1, rfl, proper.2, rfl⟩
    apply unary_of_token_head ((takes_token proceeds).2 (.inr (.inl here)))
    obtain rfl | rfl := proper.1 <;> decide
  | word name =>
    intro rest settled
    obtain ⟨identifier, free⟩ := proper
    exact unary_of_token_word identifier (ne_not free) settled.apart
      (bareWord_fits settled.apart identifier (not_mem_constants free))
  | boolean value =>
    cases value with
    | true => exact stands_constant List.mem_cons_self
    | false => exact stands_constant (List.mem_cons_of_mem _ List.mem_cons_self)
  | null => exact stands_constant (List.mem_cons_of_mem _ (List.mem_cons_of_mem _ List.mem_cons_self))
  | reference sigil name =>
    intro rest settled
    have here : Takes Grammar.reference (sigil :: name) (.reference name) rest :=
      takes_reference.2 ⟨sigil, name, proper.1, rfl, proper.2, rfl, settled.apart.stops_name⟩
    apply unary_of_token_head ((takes_token proceeds).2 (.inr (.inr (.inl here))))
    obtain rfl | rfl := proper.1 <;> decide
  | call name arguments closing =>
    intro rest settled
    obtain ⟨⟨identifier, free⟩, given, blank⟩ := proper
    have here := call_fits identifier (not_mem_constants free) given blank rest
    exact unary_of_token_name identifier (ne_not free) (stops_cons.2 (by decide)) here
  | negate operand ih => exact stands_negate (stands_enclosed (ih proper) 0)
  | not gap operand ih => exact stands_not proper.1 (stands_enclosed (ih proper.2) 0)
  | both left before after right ihLeft ihRight =>
    obtain ⟨properLeft, gapBefore, gapAfter, properRight⟩ := proper
    exact stands_both gapBefore gapAfter (stands_enclosed (ihLeft properLeft) _)
      (stands_enclosed (ihRight properRight) _)
  | either left before after right ihLeft ihRight =>
    obtain ⟨properLeft, gapBefore, gapAfter, properRight⟩ := proper
    exact stands_either gapBefore gapAfter (stands_enclosed (ihLeft properLeft) _)
      (stands_enclosed (ihRight properRight) _)
  | binary operator left before after right ihLeft ihRight =>
    obtain ⟨properLeft, gapBefore, gapAfter, properRight⟩ := proper
    exact stands_binary gapBefore gapAfter (stands_enclosed (ihLeft properLeft) _)
      (stands_enclosed (ihRight properRight) _)

/-- What is written is taken up to whatever closes it. -/
theorem takes_text {written : Written} (proper : written.Proper) {rest : Text} (closes : Closes rest) :
    parser.Takes written.text written.expr rest :=
  ((stands proper).mono written.rank_le).fits_expr rest (settled_of_closes closes 5)

end StyleScript.Expr.Written

namespace StyleScript.Expr
open Written Grammar

/-- Every tree with writable leaves can be written with no more parentheses than the precedences
need, and however that is done it is read back. -/
theorem read_written {expr : Expr} (writable : expr.Writable) :
    (∃ written : Written, written.Proper ∧ written.expr = expr) ∧
      ∀ written : Written, written.Proper → written.expr = expr → ∀ site, read site written.text = .ok expr := by
  refine ⟨writable.exists_written, fun written proper same site => ?_⟩
  rw [← same]
  exact read_of_takes (takes_text proper closes_nil) site

theorem read_written_product : ∃ written : Written, written.text = "(a or not $b) *  f(x )".toList ∧
    ∀ site, read site written.text =
      .ok (.binary .times (.either (.literal (.string ['a'] false)) (.not (.reference ['b'])))
        (.call ['f'] [['x']])) := by
  have reads : parser ['x'] = .ok (.literal (.string ['x'] false), []) := by
    apply Reading.eq_ok_of_toOption
    decide +kernel
  have canonical : Canonical ['x'] := ⟨⟨_, reads⟩, Text.stops_cons.2 (by decide)⟩
  have letter : Name.isIdentifier ['b'] = true := by decide
  have writable : Writable (.binary .times (.either (.literal (.string ['a'] false)) (.not (.reference ['b'])))
      (.call ['f'] [['x']])) := by
    refine ⟨⟨⟨by decide, by decide⟩, letter⟩, ⟨by decide, by decide⟩, ?_⟩
    intro text member
    rw [List.mem_singleton.1 member]
    exact canonical
  have proper : Written.Proper (.binary .times (.either (.word ['a']) [' '] [' '] (.not [' '] (.reference '$' ['b'])))
      [' '] [' ', ' '] (.call ['f'] [⟨[], ['x'], [' ']⟩] [])) := by
    refine ⟨⟨⟨by decide, by decide⟩, isGap_space, isGap_space, isGap_space, .inl rfl, letter⟩, isGap_space,
      ⟨List.cons_ne_nil _ _, by simp [Text.isBlank]⟩, ⟨by decide, by decide⟩, ?_, List.forall_mem_nil _⟩
    intro argument member
    rw [List.mem_singleton.1 member]
    exact ⟨canonical, List.forall_mem_nil _, isGap_space.2⟩
  exact ⟨_, by decide, (read_written writable).2 _ proper rfl⟩

end StyleScript.Expr
