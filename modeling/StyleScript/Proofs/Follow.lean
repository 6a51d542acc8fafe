import StyleScript.Proofs.Layers

/-! What may stand after an expression. The grammar looks past the end of what it takes: for more
of the last token, for an operand of `not`, and for an operator of each level with its operand.
One rest may replace another if it refuses everything that the other one refuses. -/

namespace StyleScript.Expr

/-- The operand that stands last, whatever joins it to those before it. -/
def last : Expr → Expr
  | .negate operand | .not operand => operand.last
  | .both _ right | .either _ right | .binary _ _ right => right.last
  | .literal value => .literal value
  | .reference name => .reference name
  | .call name arguments => .call name arguments

/-- The text of the expression ends in the bare word `not`, which takes whatever operand is put
after it. -/
def EndsInNot (taken : Text) (expr : Expr) : Prop :=
  "not".toList <:+ taken ∧ expr.last = .literal (.string "not".toList false)

theorem EndsInNot.append {written : Text} {operand : Expr} (ends : EndsInNot written operand) (before : Text)
    {expr : Expr} (same : expr.last = operand.last) : EndsInNot (before ++ written) expr :=
  ⟨ends.1.trans (List.suffix_append _ _), same.trans ends.2⟩

/-- Nothing, the end of a statement, a block or an argument, or a comment, with blanks before it. -/
def Closes (text : Text) : Prop :=
  let rest := Text.dropBlanks text
  rest = [] ∨ (∃ c ∈ [';', '{', '}', ')', ','], rest.head? = some c) ∨ "//".toList <+: rest ∨ "/*".toList <+: rest

theorem Closes.cases {text : Text} (closes : Closes text) :
    Text.dropBlanks text = [] ∨ ∃ c rest, Text.dropBlanks text = c :: rest ∧
      (c ∈ [';', '{', '}', ')', ','] ∨ c = '/' ∧ (rest.head? = some '/' ∨ rest.head? = some '*')) := by
  obtain empty | ⟨c, member, head⟩ | ⟨rest, same⟩ | ⟨rest, same⟩ := closes
  · exact .inl empty
  · rcases found : Text.dropBlanks text with _ | ⟨d, rest⟩
    · exact .inl rfl
    · rw [found] at head
      cases head
      exact .inr ⟨c, rest, rfl, .inl member⟩
  · exact .inr ⟨'/', '/' :: rest, same.symm, .inr ⟨rfl, .inl rfl⟩⟩
  · exact .inr ⟨'/', '*' :: rest, same.symm, .inr ⟨rfl, .inr rfl⟩⟩

theorem closes_of_head {text : Text} {c : Char} (member : c ∈ [';', '{', '}', ')', ','])
    (head : (Text.dropBlanks text).head? = some c) : Closes text :=
  .inr (.inl ⟨c, member, head⟩)

end StyleScript.Expr

namespace StyleScript.Expr.Grammar
open Reading StyleScript.Parser Text

theorem refuses_chain {σ : Type} {join : σ → Expr → Expr → Expr} {operator : Parser σ} {operand : Parser Expr}
    {text : Text} (refuses : operand.Refuses text) : (chain join operator operand).Refuses text :=
  refuses_bind.2 (.inl refuses)

theorem refuses_expr_of_head {text : Text} (other : Stops startsUnary (dropBlanks text)) : parser.Refuses text := by
  rw [parser_eq]
  have operand := refuses_unary_of_head progresses_expr.proceeds other
  exact refuses_chain (refuses_chain (refuses_bind.2 (.inl (refuses_chain (refuses_chain operand)))))

/-- Blanks before it change nothing. -/
def Unindented {α : Type} (parser : Parser α) : Prop := ∀ text, parser (dropBlanks text) = parser text

theorem unindented_blanks : Unindented blanks := by
  intro text
  rw [blanks, blanks, dropBlanks_dropBlanks]

theorem Unindented.bind {α β : Type} {first : Parser α} {next : α → Parser β} (unindented : Unindented first) :
    Unindented (first >>= next) := by
  intro text
  change followedBy first next (dropBlanks text) = followedBy first next text
  rw [followedBy, followedBy, unindented]

theorem Unindented.orElse {α : Type} {first second : Parser α} (one : Unindented first) (other : Unindented second) :
    Unindented (first <|> second) := by
  intro text
  change Parser.either first second (dropBlanks text) = Parser.either first second text
  rw [Parser.either, Parser.either, one, other]

theorem unindented_unary {inner : Parser Expr} (proceeds : inner.Proceeds) : Unindented (unary inner) := by
  rw [unary_eq proceeds]
  exact unindented_blanks.bind.orElse (unindented_blanks.bind.orElse unindented_blanks.bind)

theorem unindented_expr : Unindented parser := by
  rw [parser_eq]
  exact (unindented_unary progresses_expr.proceeds).bind.bind.bind.bind.bind

/-- `next` may come after an expression in the place of `rest`. That it may not begin an operand
is asked only of expressions that end in a bare `not`. -/
structure Follows (bare : Prop) (rest next : Text) : Prop where
  head : rest.head? = next.head? ∨ Stops (fun c => Name.continues c || c == '%') next
  opening : Stops (fun c => c == '(' || c == '.') next
  unary : bare → (unary parser).Refuses rest → (unary parser).Refuses next
  layers : ∀ layer : Layer, layer.Ends rest → layer.Ends next

theorem Follows.weaken {bare other : Prop} {rest next : Text} (follows : Follows bare rest next)
    (implies : other → bare) : Follows other rest next :=
  ⟨follows.head, follows.opening, fun holds => follows.unary (implies holds), follows.layers⟩

theorem Follows.stops {bare : Prop} {rest next : Text} (follows : Follows bare rest next) {test : Char → Bool}
    (within : ∀ c, test c = true → (Name.continues c || c == '%') = true) (stops : Stops test rest) :
    Stops test next := by
  obtain same | apart := follows.head
  · exact (stops_congr same).1 stops
  · exact apart.mono within

theorem Follows.stops_name {bare : Prop} {rest next : Text} (follows : Follows bare rest next)
    (stops : Stops Name.continues rest) : Stops Name.continues next :=
  follows.stops (fun c inside => by simp [inside]) stops

theorem refuses_item_of_operand {σ : Type} {operator : Parser σ} {operand : Parser Expr} {text sign left : Text}
    {joined : σ}
    (same : dropBlanks text = sign ++ left) (takes : operator.Takes sign joined left) (refuses : operand.Refuses left) :
    (item operator operand).Refuses text := by
  rw [item, refuses_blanks_bind, same, refuses_bind_of_reads takes, refuses_bind_pure]
  exact refuses

end StyleScript.Expr.Grammar

namespace StyleScript.Expr
open Reading StyleScript.Parser Text Grammar

theorem Closes.stops {next : Text} (closes : Closes next) {test : Char → Bool}
    (outside : [' ', '\t', '\r', '\n', ';', '{', '}', ')', ',', '/'].any test = false) : Stops test next := by
  obtain ⟨gap, left, rfl, blank, -, dropped⟩ := exists_blanks next
  have found := closes.cases
  rw [dropped] at found
  rcases gap with _ | ⟨d, gap⟩
  · obtain rfl | ⟨c, tail, rfl, mark | ⟨rfl, -⟩⟩ := found
    · exact stops_nil test
    · exact stops_cons.2
        (eq_false_of_any outside (List.mem_append_right [' ', '\t', '\r', '\n'] (List.mem_append_left ['/'] mark)))
    · exact stops_cons.2 (eq_false_of_any outside (by simp))
  · have space := blank d List.mem_cons_self
    simp only [isBlank, Bool.or_eq_true, beq_iff_eq] at space
    refine stops_cons.2 (eq_false_of_any outside ?_)
    obtain ((rfl | rfl) | rfl) | rfl := space <;> simp

theorem Closes.refuses_unary {next : Text} (closes : Closes next) : (unary parser).Refuses next := by
  apply refuses_unary_of_head progresses_expr.proceeds
  obtain empty | ⟨c, tail, same, mark | ⟨rfl, -⟩⟩ := closes.cases
  · rw [empty]
    exact stops_nil _
  · have outside : [';', '{', '}', ')', ','].any startsUnary = false := by decide
    rw [same, stops_cons]
    exact eq_false_of_any outside mark
  · rw [same, stops_cons]
    decide

/-- A comment looks like a division, but there is no operand after the slash. -/
theorem Closes.ends {next : Text} (closes : Closes next) (layer : Layer) : layer.Ends next := by
  obtain empty | ⟨c, tail, same, mark | ⟨rfl, comment⟩⟩ := closes.cases
  · apply layer.ends_of_head
    rw [empty]
    exact stops_nil _
  · have outside : [';', '{', '}', ')', ','].any layer.starts = false := by cases layer <;> decide
    apply layer.ends_of_head
    rw [same, stops_cons]
    exact eq_false_of_any outside mark
  · by_cases slash : layer.starts '/' = true
    · cases layer <;> try cases slash
      have division : productOperator.Takes ['/'] .over tail := takes_productOperator.2 (by simp [productSymbols])
      have sign : dropBlanks next = ['/'] ++ tail := same
      refine refuses_item_of_operand sign division (refuses_unary_of_head progresses_expr.proceeds ?_)
      rcases tail with _ | ⟨d, tail⟩
      · exact stops_nil _
      · simp only [List.head?_cons, Option.some.injEq] at comment
        obtain rfl | rfl := comment
        · exact stops_cons.2 (by decide)
        · exact stops_cons.2 (by decide)
    · apply layer.ends_of_head
      rw [same, stops_cons]
      exact Bool.not_eq_true _ ▸ slash

/-- After an expression nothing that closes it is read on. -/
theorem Closes.follows {next : Text} (closes : Closes next) (bare : Prop) (rest : Text) : Follows bare rest next where
  head := .inr (closes.stops (by decide))
  opening := closes.stops (by decide)
  unary _ _ := closes.refuses_unary
  layers layer _ := closes.ends layer

end StyleScript.Expr
