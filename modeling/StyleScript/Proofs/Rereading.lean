import StyleScript.Proofs.Stable
import StyleScript.Evaluation
import Mathlib.Data.List.TakeWhile

/-! A text that was recognised as an expression inside a source is kept, and read again when it is
evaluated. It then gives the tree that was recognised, and so do the texts of the arguments of
every call in that tree, which are shorter than the text around them. -/

namespace StyleScript.Expr
open Reading StyleScript.Parser Text

/-- The texts of the arguments of all calls in an expression. -/
def argumentTexts : Expr → List Text
  | .literal _ | .reference _ => []
  | .call _ arguments => arguments
  | .negate operand | .not operand => operand.argumentTexts
  | .both left right | .either left right | .binary _ left right => left.argumentTexts ++ right.argumentTexts

/-- What every constructor keeps, if the arguments of calls are texts of less than `size` characters that
can be read. -/
structure Kept (size : Nat) (holds : Expr → Prop) : Prop where
  literal : ∀ value, holds (.literal value)
  reference : ∀ name, holds (.reference name)
  call : ∀ name values,
    (∀ value ∈ values, value.length < size ∧ ∃ argument rest, parser.Takes value argument rest) →
      holds (.call name values)
  negate : ∀ operand, holds operand → holds (.negate operand)
  not : ∀ operand, holds operand → holds (.not operand)
  both : ∀ left right, holds left → holds right → holds (.both left right)
  either : ∀ left right, holds left → holds right → holds (.either left right)
  binary : ∀ operator left right, holds left → holds right → holds (.binary operator left right)

end StyleScript.Expr

namespace StyleScript.Expr.Grammar
open Reading StyleScript.Parser Text

/-- Of what is taken from texts shorter than `size`, the property holds. -/
def Yields (holds : Expr → Prop) (size : Nat) (parser : Parser Expr) : Prop :=
  ∀ taken expr rest, taken.length < size → parser.Takes taken expr rest → holds expr

theorem argument_read {taken value rest : Text} (takes : (argument parser).Takes taken value rest) :
    value.length ≤ taken.length ∧ ∃ argument rest, parser.Takes value argument rest := by
  obtain ⟨gap, expr, rfl, -, -, reads⟩ := (takes_argument progresses_expr.proceeds).1 takes
  refine ⟨?_, expr, rest, reads⟩
  rw [List.length_append]
  omega

theorem nextArguments_read {values : List Text} : ∀ {taken rest : Text},
    (many (do blanks; char ','; argument parser)).Takes taken values rest →
      ∀ value ∈ values, value.length ≤ taken.length ∧ ∃ argument rest, parser.Takes value argument rest := by
  have proceeds := progresses_expr.proceeds
  induction values with
  | nil =>
    intro _ _ _ value member
    cases member
  | cons first others ih =>
    intro taken rest takes value member
    obtain ⟨impossible, -⟩ | ⟨_, _, piece, more, ⟨⟩, rfl, here, later⟩ :=
      (takes_many (progresses_nextArgument proceeds)).1 takes
    · cases impossible
    · rw [List.length_append]
      obtain rfl | member := List.mem_cons.1 member
      · obtain ⟨_, written, rfl, -, given⟩ := (takes_nextArgument proceeds).1 here
        obtain ⟨shorter, reads⟩ := argument_read given
        exact ⟨by simp; omega, reads⟩
      · obtain ⟨shorter, reads⟩ := ih later value member
        exact ⟨by omega, reads⟩

theorem arguments_read {taken rest : Text} {values : List Text} (takes : (arguments parser).Takes taken values rest) :
    ∀ value ∈ values, value.length ≤ taken.length ∧ ∃ argument rest, parser.Takes value argument rest := by
  have proceeds := progresses_expr.proceeds
  intro value member
  obtain ⟨rfl, -⟩ | ⟨first, others, _, _, rfl, rfl, given, later⟩ := (takes_arguments proceeds).1 takes
  · cases member
  · rw [List.length_append]
    obtain rfl | member := List.mem_cons.1 member
    · obtain ⟨shorter, reads⟩ := argument_read given
      exact ⟨by omega, reads⟩
    · obtain ⟨shorter, reads⟩ := nextArguments_read later value member
      exact ⟨by omega, reads⟩

section
variable {holds : Expr → Prop} {longest : Nat} (kept : Kept longest holds) {size : Nat} (within : size ≤ longest)
include kept within

theorem yields_token (yields : Yields holds size parser) : Yields holds (size + 1) (token parser) := by
  have proceeds := progresses_expr.proceeds
  intro taken expr rest short takes
  obtain number | quote | sigil | paren | word | ⟨-, call⟩ | ⟨-, -, bare⟩ := (takes_token proceeds).1 takes
  · obtain ⟨value, unit, rfl, -⟩ := takes_number.1 number
    exact kept.literal _
  · obtain ⟨_, body, -, -, -, rfl⟩ := takes_quoted.1 quote
    exact kept.literal _
  · obtain ⟨_, name, -, -, -, rfl, -⟩ := takes_reference.1 sigil
    exact kept.reference _
  · obtain ⟨inside, gap, rfl, -, reads⟩ := (takes_group proceeds).1 paren
    simp only [List.length_cons, List.length_append] at short
    exact yields _ _ _ (by omega) reads
  · obtain ⟨member, -⟩ := takes_constant.1 word
    simp only [constants, List.mem_cons, Prod.mk.injEq, List.not_mem_nil, or_false] at member
    obtain ⟨-, rfl⟩ | ⟨-, rfl⟩ | ⟨-, rfl⟩ := member <;> exact kept.literal _
  · obtain ⟨name, values, inside, gap, rfl, identifier, blank, arguments, rfl⟩ := (takes_call proceeds).1 call
    simp only [List.length_append, List.length_cons] at short
    refine kept.call _ _ fun value member => ?_
    obtain ⟨shorter, reads⟩ := arguments_read arguments value member
    exact ⟨by omega, reads⟩
  · obtain ⟨-, rfl, -⟩ := takes_bareWord.1 bare
    exact kept.literal _

theorem yields_unary (yields : Yields holds size parser) : Yields holds (size + 1) (unary parser) := by
  have proceeds := progresses_expr.proceeds
  have operand := (progresses_unary proceeds).proceeds
  suffices bounded : ∀ bound ≤ size + 1, Yields holds bound (unary parser) from bounded _ (Nat.le_refl _)
  intro bound
  induction bound with
  | zero => exact fun _ _ _ _ short => absurd short (Nat.not_lt_zero _)
  | succ bound ih =>
    intro below taken expr rest short takes
    have shorter := ih (by omega)
    obtain negation | inversion | ⟨-, here⟩ := (takes_unary proceeds).1 takes
    · obtain ⟨gap, written, value, rfl, -, reads, rfl⟩ := (takes_negated operand).1 negation
      simp only [List.length_append, List.length_cons] at short
      exact kept.negate _ (shorter _ _ _ (by omega) reads)
    · obtain ⟨gap, written, value, rfl, -, -, reads, rfl⟩ := (takes_inverted operand).1 inversion
      have letters : "not".toList.length = 3 := rfl
      rw [List.length_append, List.length_append, letters] at short
      exact kept.not _ (shorter _ _ _ (by omega) reads)
    · obtain ⟨gap, body, rfl, -, -, reads⟩ := (takes_atom proceeds).1 here
      rw [List.length_append] at short
      exact yields_token kept within yields _ _ _ (by omega) reads

end

section
variable {holds : Expr → Prop} {size : Nat}

theorem yields_item {σ : Type} {operator : Parser σ} {operand : Parser Expr} (symbol : operator.Progresses)
    (proceeds : operand.Proceeds) (yields : Yields holds size operand) {taken rest : Text} {joined : σ} {right : Expr}
    (short : taken.length < size) (takes : (item operator operand).Takes taken (joined, right) rest) : holds right := by
  obtain ⟨gap, sign, written, rfl, -, -, -, reads⟩ := (takes_item symbol.proceeds proceeds).1 takes
  simp only [List.length_append] at short
  exact yields _ _ _ (by omega) reads

theorem yields_items {σ : Type} {operator : Parser σ} {operand : Parser Expr} (symbol : operator.Progresses)
    (proceeds : operand.Proceeds) (yields : Yields holds size operand) {others : List (σ × Expr)} :
    ∀ {taken rest : Text}, taken.length < size → (many (item operator operand)).Takes taken others rest →
      ∀ other ∈ others, holds other.2 := by
  induction others with
  | nil =>
    intro _ _ _ _ other member
    cases member
  | cons first others ih =>
    intro taken rest short takes other member
    obtain ⟨impossible, -⟩ | ⟨_, _, piece, more, ⟨⟩, rfl, here, later⟩ :=
      (takes_many (progresses_item symbol proceeds)).1 takes
    · cases impossible
    · rw [List.length_append] at short
      obtain rfl | member := List.mem_cons.1 member
      · exact yields_item symbol proceeds yields (by omega) here
      · exact ih (by omega) later other member

theorem holds_foldl {σ : Type} {join : σ → Expr → Expr → Expr}
    (joined : ∀ operator left right, holds left → holds right → holds (join operator left right))
    (others : List (σ × Expr)) : ∀ start, holds start → (∀ other ∈ others, holds other.2) →
      holds (others.foldl (fun left (joined, right) => join joined left right) start) := by
  induction others with
  | nil => exact fun _ start _ => start
  | cons first others ih =>
    intro left start rest
    exact ih _ (joined _ _ _ start (rest _ List.mem_cons_self)) fun other member =>
      rest other (List.mem_cons_of_mem _ member)

theorem yields_chain {σ : Type} {join : σ → Expr → Expr → Expr} {operator : Parser σ} {operand : Parser Expr}
    (symbol : operator.Progresses) (proceeds : operand.Proceeds)
    (joined : ∀ operator left right, holds left → holds right → holds (join operator left right))
    (yields : Yields holds size operand) : Yields holds size (chain join operator operand) := by
  intro taken expr rest short takes
  obtain ⟨start, others, first, second, rfl, reads, items, rfl⟩ := (takes_chain symbol proceeds).1 takes
  rw [List.length_append] at short
  exact holds_foldl joined others start (yields _ _ _ (by omega) reads)
    (yields_items symbol proceeds yields (by omega) items)

variable {longest : Nat} (kept : Kept longest holds)
include kept

theorem yields_comparison (yields : Yields holds size (sum parser)) : Yields holds size (comparison parser) := by
  have operand := (progresses_sum progresses_expr.proceeds).proceeds
  intro taken expr rest short takes
  obtain ⟨alone, -⟩ | ⟨operator, left, right, first, second, rfl, reads, compared, rfl⟩ :=
    (takes_comparison progresses_expr.proceeds).1 takes
  · exact yields _ _ _ short alone
  · have progresses := progresses_sum progresses_expr.proceeds
    have nonempty := List.length_pos_iff.2 (progresses.takes_ne_nil reads)
    have present := List.length_pos_iff.2
      ((progresses_item progresses_comparisonOperator operand).takes_ne_nil compared)
    rw [List.length_append] at short
    exact kept.binary _ _ _ (yields _ _ _ (by omega) reads)
      (yields_item progresses_comparisonOperator operand yields (by omega) compared)

theorem yields_disjunction (within : size ≤ longest) (yields : Yields holds size parser) :
    Yields holds (size + 1) (disjunction parser) := by
  have proceeds := progresses_expr.proceeds
  have products : Yields holds (size + 1) (product parser) :=
    yields_chain progresses_productOperator (progresses_unary proceeds).proceeds kept.binary
      (yields_unary kept within yields)
  have sums : Yields holds (size + 1) (sum parser) :=
    yields_chain progresses_sumOperator (progresses_product proceeds).proceeds kept.binary products
  have conjunctions : Yields holds (size + 1) (conjunction parser) :=
    yields_chain (progresses_keyword (by decide)) (progresses_comparison proceeds).proceeds (fun _ => kept.both)
      (yields_comparison kept sums)
  exact yields_chain (progresses_keyword (by decide)) (progresses_conjunction proceeds).proceeds (fun _ => kept.either)
    conjunctions

theorem yields_expr : ∀ size ≤ longest + 1, Yields holds size parser
  | 0, _ => fun _ _ _ short => absurd short (Nat.not_lt_zero _)
  | size + 1, within => by
    have below : size ≤ longest := Nat.le_of_succ_le_succ within
    have yields := yields_disjunction kept below (yields_expr size (Nat.le_succ_of_le below))
    rw [← parser_eq] at yields
    exact yields

end

end StyleScript.Expr.Grammar

namespace StyleScript.Expr
open Reading StyleScript.Parser Text Grammar

theorem Kept.of_takes {holds : Expr → Prop} {taken rest : Text} {expr : Expr} (kept : Kept taken.length holds)
    (takes : parser.Takes taken expr rest) : holds expr :=
  yields_expr kept (taken.length + 1) (Nat.le_refl _) _ _ _ (Nat.lt_succ_self _) takes

theorem kept_argumentTexts (size : Nat) : Kept size fun expr =>
    ∀ text ∈ expr.argumentTexts, text.length < size ∧ ∃ argument rest, parser.Takes text argument rest where
  literal _ _ member := nomatch member
  reference _ _ member := nomatch member
  call _ _ given := given
  negate _ operand := operand
  not _ operand := operand
  both _ _ left right text member := (List.mem_append.1 member).elim (left text) (right text)
  either _ _ left right text member := (List.mem_append.1 member).elim (left text) (right text)
  binary _ _ _ left right text member := (List.mem_append.1 member).elim (left text) (right text)

/-- A text that is an expression: what is taken, and blanks after it. -/
theorem exists_takes_of_ofText {text : Text} {expr : Expr} (reads : ofText text = .ok expr) :
    ∃ taken gap, text = taken ++ gap ∧ parser.Takes taken expr gap ∧ ∀ c ∈ gap, isBlank c = true := by
  rw [ofText] at reads
  rcases result : parser text with place | ⟨value, rest⟩
  · rw [result] at reads
    cases reads
  · simp only [result] at reads
    split at reads
    next blank =>
      cases reads
      obtain ⟨taken, whole, takes⟩ := progresses_expr.proceeds.takes result
      exact ⟨taken, rest, whole, takes, List.dropWhile_eq_nil_iff.1 blank⟩
    next => cases reads

theorem argument_shorter {text : Text} {expr : Expr} (reads : ofText text = .ok expr) :
    ∀ argument ∈ expr.argumentTexts, argument.length < text.length := by
  intro argument member
  obtain ⟨taken, gap, rfl, takes, -⟩ := exists_takes_of_ofText reads
  obtain ⟨shorter, -⟩ := (kept_argumentTexts _).of_takes takes argument member
  rw [List.length_append]
  omega

theorem closes_nil : Closes [] := .inl rfl

/-- What was taken inside a longer text is the whole of itself. -/
theorem takes_alone {taken rest : Text} {expr : Expr} (takes : parser.Takes taken expr rest) :
    parser taken = .ok (expr, []) := by
  have alone := takes_of_closes takes closes_nil
  rw [Takes, List.append_nil] at alone
  exact alone

theorem ofText_of_takes {taken rest : Text} {expr : Expr} (takes : parser.Takes taken expr rest) :
    ofText taken = .ok expr := by
  rw [ofText, takes_alone takes]
  rfl

theorem read_of_takes {taken rest : Text} {expr : Expr} (takes : parser.Takes taken expr rest) (site : Site) :
    read site taken = .ok expr := by
  rw [read, ofText_of_takes takes]

/-- The part of an input that is an expression is the same expression by itself and before
everything that closes it, and the arguments of its calls can be read. -/
theorem extent_independent {input rest : Text} {expr : Expr} (reads : parser input = .ok (expr, rest)) :
    ∃ taken, input = taken ++ rest ∧ parser taken = .ok (expr, []) ∧
      (∀ next, Closes next → parser (taken ++ next) = .ok (expr, next)) ∧
      (∀ site, read site taken = .ok expr) ∧
      ∀ text ∈ expr.argumentTexts, ∃ argument, parser text = .ok (argument, []) ∧
        ∀ site, read site text = .ok argument := by
  obtain ⟨taken, rfl, takes⟩ := progresses_expr.proceeds.takes reads
  refine ⟨taken, rfl, takes_alone takes, fun next closes => takes_of_closes takes closes, read_of_takes takes, ?_⟩
  intro text member
  obtain ⟨-, argument, left, again⟩ := (kept_argumentTexts _).of_takes takes text member
  exact ⟨argument, takes_alone again, read_of_takes again⟩

/-- A call divided by a word, with a comment after it that looks like one more division. -/
theorem extent_independent_call : ∃ taken,
    "f( $a ,not b)/x // one".toList = taken ++ " // one".toList ∧
      parser taken = .ok (.binary .over (.call ['f'] ["$a".toList, "not b".toList])
        (.literal (.string ['x'] false)), []) := by
  have reads : parser "f( $a ,not b)/x // one".toList =
      .ok (.binary .over (.call ['f'] ["$a".toList, "not b".toList]) (.literal (.string ['x'] false)),
        " // one".toList) := by
    apply eq_ok_of_toOption
    decide +kernel
  obtain ⟨taken, same, alone, -⟩ := extent_independent reads
  exact ⟨taken, same, alone⟩

end StyleScript.Expr
