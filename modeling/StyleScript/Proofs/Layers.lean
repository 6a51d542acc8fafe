import StyleScript.Proofs.Levels

/-! The levels that join operands, as data. At each of them an operator is known by its first
character, which no other level shares; so a text that starts with an operator of one level ends
what all the others can read. -/

namespace StyleScript.Expr.Grammar
open Reading StyleScript.Parser Text

theorem takes_operator {symbol : String} {meaning joined : Operator} {taken rest : Text} :
    (operator symbol meaning).Takes taken joined rest ↔ taken = symbol.toList ∧ joined = meaning := by
  rw [operator, takes_bind_pure]
  simp [takes_exactly]

theorem refuses_operator {symbol : String} {meaning : Operator} {text : Text} :
    (operator symbol meaning).Refuses text ↔ ¬ symbol.toList <+: text := by
  rw [operator, refuses_bind_pure, refuses_exactly]

def productSymbols : List (Text × Operator) := [(['*'], .times), (['/'], .over), (['%'], .modulo)]

def sumSymbols : List (Text × Operator) := [(['+'], .plus), (['-'], .minus)]

def comparisonSymbols : List (Text × Operator) :=
  [(['=', '='], .equal), (['!', '='], .unequal), (['<', '='], .lessOrEqual), (['>', '='], .greaterOrEqual),
    (['<'], .less), (['>'], .greater)]

theorem takes_productOperator {taken rest : Text} {joined : Operator} :
    productOperator.Takes taken joined rest ↔ (taken, joined) ∈ productSymbols := by
  rw [productOperator]
  simp only [takes_orElse, takes_operator, refuses_operator, productSymbols, List.mem_cons, Prod.mk.injEq,
    List.not_mem_nil, or_false]
  constructor
  · rintro (⟨rfl, rfl⟩ | ⟨-, ⟨rfl, rfl⟩ | ⟨-, rfl, rfl⟩⟩) <;> simp
  · rintro (⟨rfl, rfl⟩ | ⟨rfl, rfl⟩ | ⟨rfl, rfl⟩) <;> simp

theorem takes_sumOperator {taken rest : Text} {joined : Operator} :
    sumOperator.Takes taken joined rest ↔ (taken, joined) ∈ sumSymbols := by
  rw [sumOperator]
  simp only [takes_orElse, takes_operator, refuses_operator, sumSymbols, List.mem_cons, Prod.mk.injEq,
    List.not_mem_nil, or_false]
  constructor
  · rintro (⟨rfl, rfl⟩ | ⟨-, rfl, rfl⟩) <;> simp
  · rintro (⟨rfl, rfl⟩ | ⟨rfl, rfl⟩) <;> simp

/-- An order sign is read alone only where no equals sign comes after it. -/
theorem takes_comparisonOperator {taken rest : Text} {joined : Operator} :
    comparisonOperator.Takes taken joined rest ↔
      (taken, joined) ∈ comparisonSymbols ∧ (taken.length = 1 → rest.head? ≠ some '=') := by
  have longer (c : Char) : ¬ [c, '='] <+: [c] ++ rest ↔ rest.head? ≠ some '=' := by
    rcases rest with _ | ⟨d, rest⟩ <;> simp [eq_comm]
  rw [comparisonOperator]
  simp only [takes_orElse, takes_operator, refuses_operator, comparisonSymbols, List.mem_cons, Prod.mk.injEq,
    List.not_mem_nil, or_false]
  constructor
  · intro found
    obtain ⟨rfl, rfl⟩ | ⟨-,
      ⟨rfl, rfl⟩ | ⟨-, ⟨rfl, rfl⟩ | ⟨less, ⟨rfl, rfl⟩ | ⟨greater, ⟨rfl, rfl⟩ | ⟨-, rfl, rfl⟩⟩⟩⟩⟩ := found
    · simp
    · simp
    · simp
    · simp
    · exact ⟨by simp, fun _ => (longer '<').1 less⟩
    · exact ⟨by simp, fun _ => (longer '>').1 greater⟩
  · intro found
    obtain ⟨⟨rfl, rfl⟩ | ⟨rfl, rfl⟩ | ⟨rfl, rfl⟩ | ⟨rfl, rfl⟩ | ⟨rfl, rfl⟩ | ⟨rfl, rfl⟩, single⟩ := found
    · simp
    · simp
    · simp
    · simp
    · have alone := (longer '<').2 (single rfl)
      simpa using alone
    · have alone := (longer '>').2 (single rfl)
      simpa using alone

inductive Layer where
  | product | sum | comparison | conjunction | disjunction
deriving DecidableEq

namespace Layer

def starts : Layer → Char → Bool
  | .product, c => c == '*' || c == '/' || c == '%'
  | .sum, c => c == '+' || c == '-'
  | .comparison, c => c == '=' || c == '!' || c == '<' || c == '>'
  | .conjunction, c => c == 'a'
  | .disjunction, c => c == 'o'

/-- Nothing of this level can be read on. -/
def Ends : Layer → Text → Prop
  | .product, rest => (item productOperator (unary parser)).Refuses rest
  | .sum, rest => (item sumOperator (Grammar.product parser)).Refuses rest
  | .comparison, rest => (item comparisonOperator (Grammar.sum parser)).Refuses rest
  | .conjunction, rest => (item (keyword "and") (Grammar.comparison parser)).Refuses rest
  | .disjunction, rest => (item (keyword "or") (Grammar.conjunction parser)).Refuses rest

/-- The first character of an operator belongs to one level only. -/
theorem starts_unique {layer other : Layer} {c : Char} (here : layer.starts c = true) (different : other ≠ layer) :
    other.starts c = false := by
  cases layer <;> simp only [starts, Bool.or_eq_true, beq_iff_eq] at here
  case product => obtain (rfl | rfl) | rfl := here <;> cases other <;> first | rfl | exact absurd rfl different
  case sum => obtain rfl | rfl := here <;> cases other <;> first | rfl | exact absurd rfl different
  case comparison =>
    obtain ((rfl | rfl) | rfl) | rfl := here <;> cases other <;> first | rfl | exact absurd rfl different
  case conjunction => subst here; cases other <;> first | rfl | exact absurd rfl different
  case disjunction => subst here; cases other <;> first | rfl | exact absurd rfl different

end Layer

/-- What the proofs about a level need to know of its operator and its operands. -/
structure Joins {σ : Type} (layer : Layer) (operator : Parser σ) (operand : Parser Expr) : Prop where
  symbol : operator.Progresses
  progresses : operand.Progresses
  ends : ∀ text, layer.Ends text ↔ (item operator operand).Refuses text
  starts : ∀ text, Stops layer.starts text → operator.Refuses text
  /-- Only one character after an operator is looked at. -/
  firm : ∀ taken joined rest next, operator.Takes taken joined rest → rest.head? = next.head? →
    operator.Takes taken joined next
  /-- Where operator and operand were no operand themselves, they are none before another rest. -/
  unary : ∀ sign joined written right rest next, operator.Takes sign joined (written ++ rest) →
    operand.Takes written right rest → (Grammar.unary parser).Refuses (sign ++ (written ++ rest)) →
    (Grammar.unary parser).Refuses (sign ++ (written ++ next))

theorem refuses_of_takes_head {α : Type} {parser : Parser α} (progresses : parser.Progresses) {test : Char → Bool}
    (heads : ∀ taken value rest, parser.Takes taken value rest → ∃ c tail, taken = c :: tail ∧ test c = true)
    (text : Text) (stops : Stops test text) : parser.Refuses text := by
  obtain refuses | ⟨value, rest, reads⟩ := refuses_or_reads parser text
  · exact refuses
  · obtain ⟨taken, rfl, takes⟩ := progresses.proceeds.takes reads
    obtain ⟨c, tail, rfl, inside⟩ := heads taken value rest takes
    rw [List.cons_append, stops_cons, inside] at stops
    cases stops

theorem refuses_unary_sign {c : Char} {text : Text} (visible : isBlank c = false) (other : startsUnary c = false) :
    (unary parser).Refuses (c :: text) := by
  apply refuses_unary_of_head progresses_expr.proceeds
  rw [dropBlanks_cons_of_not_blank visible, stops_cons]
  exact other

/-- A dash and an operand are an operand. -/
theorem not_refuses_unary_dash {written rest : Text} {right : Expr}
    (takes : (product parser).Takes written right rest) :
    ¬ (unary parser).Refuses ('-' :: (written ++ rest)) := by
  intro refuses
  rw [unary_eq progresses_expr.proceeds, refuses_orElse, refuses_negated] at refuses
  have none := refuses.1 (written ++ rest) rfl
  exact not_refuses takes (refuses_bind.2 (.inl none))

theorem refuses_unary_unequal (text : Text) : (unary parser).Refuses ('!' :: '=' :: text) := by
  have other : Stops Name.startsIdentifier ('!' :: '=' :: text) := stops_cons.2 (by decide)
  have sigil : reference.Refuses ('!' :: '=' :: text) := by
    have reads : (char '$' <|> char '!') ('!' :: '=' :: text) = .ok ((), '=' :: text) := rfl
    rw [reference, refuses_bind_of_reads reads, refuses_bind_pure, refuses_identifier]
    exact stops_cons.2 (by decide)
  rw [unary_eq progresses_expr.proceeds, refuses_orElse, refuses_orElse, refuses_negated, refuses_inverted]
  refine ⟨fun left same => ?_, fun left same => ?_, refuses_bind.2 (.inr ⟨(), '!' :: '=' :: text, rfl, ?_⟩)⟩
  · cases same
  · cases same
  · exact refuses_orElse.2 ⟨refuses_number_of_head (stops_cons.2 (by decide)),
      refuses_orElse.2 ⟨refuses_quoted_of_head (stops_cons.2 (by decide)), refuses_orElse.2 ⟨sigil,
        refuses_orElse.2 ⟨refuses_group_of_head (by rintro ⟨⟩), refuses_orElse.2 ⟨refuses_constant_of_head other,
          refuses_orElse.2 ⟨refuses_call_of_head other, refuses_bareWord_of_head other⟩⟩⟩⟩⟩⟩

/-- A word is an operand, if only a bare one. -/
theorem not_refuses_unary_word {c : Char} {text : Text} (visible : isBlank c = false)
    (starts : Name.startsIdentifier c = true) : ¬ (unary parser).Refuses (c :: text) := by
  intro refuses
  have here : blanks (c :: text) = .ok ((), c :: text) := by
    rw [blanks, dropBlanks_cons_of_not_blank visible]
  rw [unary_eq progresses_expr.proceeds, refuses_orElse, refuses_orElse] at refuses
  obtain ⟨-, -, atom⟩ := refuses
  change (blanks >>= fun _ => token parser).Refuses (c :: text) at atom
  rw [refuses_bind_of_reads here] at atom
  simp only [token, refuses_orElse] at atom
  obtain ⟨-, -, -, -, -, -, word⟩ := atom
  rw [bareWord, refuses_bind_pure, refuses_identifier, stops_cons, starts] at word
  cases word

theorem joins_product : Joins .product productOperator (unary parser) where
  symbol := progresses_productOperator
  progresses := progresses_unary progresses_expr.proceeds
  ends _ := Iff.rfl
  starts := by
    apply refuses_of_takes_head progresses_productOperator
    intro taken joined rest takes
    simp only [takes_productOperator, productSymbols, List.mem_cons, Prod.mk.injEq, List.not_mem_nil, or_false] at takes
    obtain ⟨rfl, -⟩ | ⟨rfl, -⟩ | ⟨rfl, -⟩ := takes <;> exact ⟨_, _, rfl, rfl⟩
  firm taken joined rest next takes _ := by
    rw [takes_productOperator] at takes ⊢
    exact takes
  unary sign joined written right rest next takes _ _ := by
    simp only [takes_productOperator, productSymbols, List.mem_cons, Prod.mk.injEq, List.not_mem_nil, or_false] at takes
    obtain ⟨rfl, -⟩ | ⟨rfl, -⟩ | ⟨rfl, -⟩ := takes <;> exact refuses_unary_sign (by decide) (by decide)

theorem joins_sum : Joins .sum sumOperator (product parser) where
  symbol := progresses_sumOperator
  progresses := progresses_product progresses_expr.proceeds
  ends _ := Iff.rfl
  starts := by
    apply refuses_of_takes_head progresses_sumOperator
    intro taken joined rest takes
    simp only [takes_sumOperator, sumSymbols, List.mem_cons, Prod.mk.injEq, List.not_mem_nil, or_false] at takes
    obtain ⟨rfl, -⟩ | ⟨rfl, -⟩ := takes <;> exact ⟨_, _, rfl, rfl⟩
  firm taken joined rest next takes _ := by
    rw [takes_sumOperator] at takes ⊢
    exact takes
  unary sign joined written right rest next takes operand refuses := by
    simp only [takes_sumOperator, sumSymbols, List.mem_cons, Prod.mk.injEq, List.not_mem_nil, or_false] at takes
    obtain ⟨rfl, -⟩ | ⟨rfl, -⟩ := takes
    · exact refuses_unary_sign (by decide) (by decide)
    · have dash := not_refuses_unary_dash operand
      exact absurd refuses dash

theorem joins_comparison : Joins .comparison comparisonOperator (sum parser) where
  symbol := progresses_comparisonOperator
  progresses := progresses_sum progresses_expr.proceeds
  ends _ := Iff.rfl
  starts := by
    apply refuses_of_takes_head progresses_comparisonOperator
    intro taken joined rest takes
    simp only [takes_comparisonOperator, comparisonSymbols, List.mem_cons, Prod.mk.injEq, List.not_mem_nil,
      or_false] at takes
    obtain ⟨⟨rfl, -⟩ | ⟨rfl, -⟩ | ⟨rfl, -⟩ | ⟨rfl, -⟩ | ⟨rfl, -⟩ | ⟨rfl, -⟩, -⟩ := takes <;> exact ⟨_, _, rfl, rfl⟩
  firm taken joined rest next takes same := by
    rw [takes_comparisonOperator] at takes ⊢
    rw [← same]
    exact takes
  unary sign joined written right rest next takes _ _ := by
    simp only [takes_comparisonOperator, comparisonSymbols, List.mem_cons, Prod.mk.injEq, List.not_mem_nil,
      or_false] at takes
    obtain ⟨⟨rfl, -⟩ | ⟨rfl, -⟩ | ⟨rfl, -⟩ | ⟨rfl, -⟩ | ⟨rfl, -⟩ | ⟨rfl, -⟩, -⟩ := takes
    case inr.inl => exact refuses_unary_unequal _
    all_goals exact refuses_unary_sign (by decide) (by decide)

theorem joins_keyword {layer : Layer} {word : String} {c : Char} {tail : Text} {operand : Parser Expr}
    (letters : word.toList = c :: tail) (starts : layer.starts c = true)
    (visible : isBlank c = false) (letter : Name.startsIdentifier c = true) (progresses : operand.Progresses)
    (ends : ∀ text, layer.Ends text ↔ (item (keyword word) operand).Refuses text) :
    Joins layer (keyword word) operand where
  symbol := progresses_keyword (by rw [letters]; exact List.cons_ne_nil _ _)
  progresses := progresses
  ends := ends
  starts := by
    apply refuses_of_takes_head (progresses_keyword (by rw [letters]; exact List.cons_ne_nil _ _))
    intro taken joined rest takes
    rw [takes_keyword, letters] at takes
    exact ⟨c, tail, takes.1, starts⟩
  firm taken joined rest next takes same := by
    rw [takes_keyword] at takes ⊢
    exact ⟨takes.1, (stops_congr same).1 takes.2⟩
  unary sign joined written right rest next takes _ refuses := by
    rw [takes_keyword, letters] at takes
    rw [takes.1] at refuses
    exact absurd refuses (not_refuses_unary_word visible letter)

theorem joins_conjunction : Joins .conjunction (keyword "and") (comparison parser) :=
  joins_keyword rfl rfl (by decide) (by decide) (progresses_comparison progresses_expr.proceeds) fun _ => Iff.rfl

theorem joins_disjunction : Joins .disjunction (keyword "or") (conjunction parser) :=
  joins_keyword rfl rfl (by decide) (by decide) (progresses_conjunction progresses_expr.proceeds) fun _ => Iff.rfl

theorem Layer.ends_of_head (layer : Layer) {text : Text} (other : Stops layer.starts (dropBlanks text)) :
    layer.Ends text := by
  cases layer with
  | product => exact refuses_item (joins_product.starts _ other)
  | sum => exact refuses_item (joins_sum.starts _ other)
  | comparison => exact refuses_item (joins_comparison.starts _ other)
  | conjunction => exact refuses_item (joins_conjunction.starts _ other)
  | disjunction => exact refuses_item (joins_disjunction.starts _ other)

end StyleScript.Expr.Grammar
