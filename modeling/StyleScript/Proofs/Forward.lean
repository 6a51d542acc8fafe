import StyleScript.Proofs.Loops
import StyleScript.Proofs.Slices

/-! Reading goes forward. What is left is an end of what was given, and it is shorter wherever a
loop or a nested part would otherwise see the same text again. So every loop comes to an end, and
every slice of a source reaches from one end of it to a later one. -/

namespace StyleScript
open Reading StyleScript.Parser Statement.Grammar Expr.Grammar

/-- Repeating a parser comes to an end on every text. -/
def Parser.Repeats {α : Type} (parser : Parser α) : Prop := IsLoop (turn parser) List.cons (many parser)

namespace Sheet
variable (sheet : Sheet)

/-- What is left after each reading is an end of what it was given. -/
structure LeavesEnds : Prop where
  trivia : Trivia.trivia.Proceeds
  identifier : Parser.identifier.Proceeds
  numeral : Numeral.numeral.Proceeds
  expr : Expr.parser.Proceeds
  items : (items sheet).Proceeds
  block : (block sheet (Statement.Grammar.items sheet)).Proceeds
  expression : (Statement.Grammar.expression sheet).Proceeds
  terminator : (Statement.Grammar.terminator sheet).Proceeds
  statement : (Statement.Grammar.statement sheet (Statement.Grammar.items sheet)).Proceeds

/-- These never succeed without taking a character. -/
structure TakesCharacters : Prop where
  expr : Expr.parser.Progresses
  argument : (argument Expr.parser).Progresses
  comparison : (item comparisonOperator (sum Expr.parser)).Progresses
  statement : (statement sheet (items sheet)).Progresses

structure LoopsEnd : Prop where
  trivia : Trivia.piece.Repeats
  products : (item productOperator (unary Expr.parser)).Repeats
  sums : (item sumOperator (product Expr.parser)).Repeats
  conjunctions : (item (keyword "and") (comparison Expr.parser)).Repeats
  disjunctions : (item (keyword "or") (conjunction Expr.parser)).Repeats
  arguments : (do blanks; char ','; argument Expr.parser : Parser Text).Repeats
  items : IsLoop (itemsTurn sheet) addItem (items sheet)
  branches : IsLoop (branchTurn sheet) addBranch (follow sheet (Statement.Grammar.items sheet))

/-- What stands inside is only asked for on a shorter text, so no nesting goes on for ever. -/
structure NestsDown : Prop where
  operands : Contractive fun operand => negated operand <|> inverted operand <|> atom Expr.parser
  unary : unary Expr.parser = (negated (unary Expr.parser) <|> inverted (unary Expr.parser) <|> atom Expr.parser)
  parentheses : Contractive disjunction
  expr : Expr.parser = disjunction Expr.parser
  blocks : Contractive (loop sheet)
  items : items sheet = loop sheet (items sheet)

theorem leavesEnds : sheet.LeavesEnds where
  trivia := (proceeds_many Trivia.progresses_piece.proceeds).bind fun _ => proceeds_pure _
  identifier := progresses_identifier.proceeds
  numeral := Numeral.progresses_numeral.proceeds
  expr := Expr.progresses_expr.proceeds
  items := proceeds_items sheet
  block := (progresses_block sheet (proceeds_items sheet)).proceeds
  expression := (progresses_expression sheet).proceeds
  terminator := proceeds_terminator sheet
  statement := (progresses_statement (proceeds_items sheet)).proceeds

theorem takesCharacters : sheet.TakesCharacters where
  expr := Expr.progresses_expr
  argument := proceeds_blanks.bind_progresses fun _ => progresses_span Expr.progresses_expr
  comparison := progresses_item progresses_comparisonOperator (progresses_sum Expr.progresses_expr.proceeds).proceeds
  statement := progresses_statement (proceeds_items sheet)

theorem loopsEnd : sheet.LoopsEnd := by
  have inner := Expr.progresses_expr.proceeds
  have word {word : String} {operand : Parser Expr} (nonempty : word.toList ≠ []) (proceeds : operand.Proceeds) :
      (item (keyword word) operand).Repeats :=
    isLoop_many (progresses_item (progresses_keyword nonempty) proceeds)
  constructor
  case trivia => exact isLoop_many Trivia.progresses_piece
  case products => exact isLoop_many (progresses_item progresses_productOperator (progresses_unary inner).proceeds)
  case sums => exact isLoop_many (progresses_item progresses_sumOperator (progresses_product inner).proceeds)
  case conjunctions => exact word (by decide) (progresses_comparison inner).proceeds
  case disjunctions => exact word (by decide) (progresses_conjunction inner).proceeds
  case arguments => exact isLoop_many (progresses_nextArgument inner)
  case items => exact isLoop_items sheet
  case branches => exact isLoop_follow sheet

theorem nestsDown : sheet.NestsDown where
  operands := contractive_unary _
  unary := unary_eq Expr.progresses_expr.proceeds
  parentheses := contractive_disjunction
  expr := Expr.parser_eq
  blocks := fun _ _ _ proceeds agree => agreeBelow_loop proceeds agree
  items := items_eq_loop sheet

/-- Every step of reading goes forward, no loop and no nesting is without an end, and no slice is
asked for in vain. -/
theorem goes_forward :
    sheet.LeavesEnds ∧ sheet.TakesCharacters ∧ sheet.LoopsEnd ∧ sheet.NestsDown ∧
      sheet.statementsBy Stop = sheet.statements.mapError .fault :=
  ⟨sheet.leavesEnds, sheet.takesCharacters, sheet.loopsEnd, sheet.nestsDown, sheet.statementsBy_checked⟩

end Sheet
end StyleScript
