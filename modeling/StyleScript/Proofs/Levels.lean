import StyleScript.Proofs.Atoms

/-! What the levels of the expression grammar take, and with which characters they cannot begin or
go on. An operator is told from those of the other levels by its first character. -/

namespace StyleScript.Reading
open Text

/-- Where a text cannot be read unless it begins with a character of some class, what is taken
begins with one. -/
theorem Progresses.head {ε α : Type} {reading : Reading ε α} (progresses : reading.Progresses)
    {test : Char → Bool} (starts : ∀ text, Stops test text → reading.Refuses text) {taken rest : Text} {value : α}
    (takes : reading.Takes taken value rest) : ∃ c tail, taken = c :: tail ∧ test c = true := by
  rcases taken with _ | ⟨c, tail⟩
  · exact absurd rfl (progresses.takes_ne_nil takes)
  · refine ⟨c, tail, rfl, ?_⟩
    cases inside : test c with
    | true => rfl
    | false => exact absurd (starts _ (stops_cons.2 inside)) (not_refuses takes)

end StyleScript.Reading

namespace StyleScript.Expr.Grammar
open Reading StyleScript.Parser Text

def startsAtom (c : Char) : Bool :=
  Numeral.starts c || startsQuoted c || startsReference c || c == '(' || Name.startsIdentifier c

theorem startsNumeral_of_startsIdentifier {c : Char} (starts : Name.startsIdentifier c = true) :
    Numeral.starts c = false := by
  rw [Numeral.starts, Name.isDigit_of_startsIdentifier starts, Bool.false_or, beq_eq_false_iff_ne]
  rintro rfl
  cases starts

theorem startsQuoted_of_startsIdentifier {c : Char} (starts : Name.startsIdentifier c = true) :
    startsQuoted c = false := by
  cases quote : startsQuoted c with
  | false => rfl
  | true =>
    simp only [startsQuoted, Bool.or_eq_true, beq_iff_eq] at quote
    obtain rfl | rfl := quote <;> cases starts

theorem startsReference_of_startsIdentifier {c : Char} (starts : Name.startsIdentifier c = true) :
    startsReference c = false := by
  cases sigil : startsReference c with
  | false => rfl
  | true =>
    simp only [startsReference, Bool.or_eq_true, beq_iff_eq] at sigil
    obtain rfl | rfl := sigil <;> cases starts

theorem refuses_number_of_head {text : Text} (other : Stops Numeral.starts text) : number.Refuses text :=
  refuses_bind.2 (.inl (Numeral.refuses_numeral_of_head other))

theorem refuses_group_of_head {inner : Parser Expr} {text : Text} (other : text.head? ≠ some '(') :
    (group inner).Refuses text :=
  refuses_bind.2 (.inl (refuses_char.2 other))

theorem refuses_call_of_head {inner : Parser Expr} {text : Text} (other : Stops Name.startsIdentifier text) :
    (call inner).Refuses text :=
  refuses_bind.2 (.inl (refuses_identifier.2 other))

theorem refuses_bareWord_of_head {text : Text} (other : Stops Name.startsIdentifier text) : bareWord.Refuses text :=
  refuses_bind.2 (.inl (refuses_identifier.2 other))

theorem refuses_constant_of_head {text : Text} (other : Stops Name.startsIdentifier text) : constant.Refuses text := by
  rcases text with _ | ⟨c, text⟩
  · exact ⟨[], rfl⟩
  · rw [stops_cons] at other
    have word (word : String) (meaning : Expr) (nonempty : word.toList ≠ [])
        (starts : word.toList.head?.all Name.startsIdentifier = true) :
        (do keyword word; return meaning : Parser Expr).Refuses (c :: text) := by
      refine refuses_bind.2 (.inl (refuses_keyword_of_head (fun same => ?_) nonempty))
      rw [same, Option.all_some, other] at starts
      cases starts
    exact refuses_orElse.2 ⟨word _ _ (by decide) (by decide),
      refuses_orElse.2 ⟨word _ _ (by decide) (by decide), word _ _ (by decide) (by decide)⟩⟩

theorem refuses_token_of_head {inner : Parser Expr} {text : Text} (other : Stops startsAtom text) :
    (token inner).Refuses text := by
  have narrow {test : Char → Bool} (within : ∀ c, test c = true → startsAtom c = true) : Stops test text :=
    other.mono within
  have word : Stops Name.startsIdentifier text := narrow fun c inside => by simp [startsAtom, inside]
  have quote : Stops startsQuoted text := narrow fun c inside => by simp [startsAtom, inside]
  have sigil : Stops startsReference text := narrow fun c inside => by simp [startsAtom, inside]
  have digits : Stops Numeral.starts text := narrow fun c inside => by simp [startsAtom, inside]
  have paren : text.head? ≠ some '(' := fun found => absurd (other _ found) (by decide)
  exact refuses_orElse.2 ⟨refuses_number_of_head digits, refuses_orElse.2 ⟨refuses_quoted_of_head quote,
    refuses_orElse.2 ⟨refuses_reference_of_head sigil, refuses_orElse.2 ⟨refuses_group_of_head paren,
      refuses_orElse.2 ⟨refuses_constant_of_head word, refuses_orElse.2 ⟨refuses_call_of_head word,
        refuses_bareWord_of_head word⟩⟩⟩⟩⟩⟩

/-- The alternatives by name. Only those that begin with a letter can stand in each other's way. -/
theorem takes_token {inner : Parser Expr} (proceeds : inner.Proceeds) {taken rest : Text} {expr : Expr} :
    (token inner).Takes taken expr rest ↔
      number.Takes taken expr rest ∨ quoted.Takes taken expr rest ∨ reference.Takes taken expr rest ∨
        (group inner).Takes taken expr rest ∨ constant.Takes taken expr rest ∨
        constant.Refuses (taken ++ rest) ∧ (call inner).Takes taken expr rest ∨
        constant.Refuses (taken ++ rest) ∧ (call inner).Refuses (taken ++ rest) ∧ bareWord.Takes taken expr rest := by
  simp only [token, takes_orElse]
  constructor
  · intro found
    obtain takes | ⟨-, takes | ⟨-, takes | ⟨-, takes | ⟨-, takes | ⟨refuses, takes | ⟨refuses', takes⟩⟩⟩⟩⟩⟩ := found
    · exact .inl takes
    · exact .inr (.inl takes)
    · exact .inr (.inr (.inl takes))
    · exact .inr (.inr (.inr (.inl takes)))
    · exact .inr (.inr (.inr (.inr (.inl takes))))
    · exact .inr (.inr (.inr (.inr (.inr (.inl ⟨refuses, takes⟩)))))
    · exact .inr (.inr (.inr (.inr (.inr (.inr ⟨refuses, refuses', takes⟩)))))
  · -- the first character is not one of those that the alternatives before it need
    have word {tail : Text} {c : Char} (starts : Name.startsIdentifier c = true) {last : Prop} (holds : last) :
        number.Takes (c :: tail) expr rest ∨ number.Refuses (c :: tail ++ rest) ∧ (quoted.Takes (c :: tail) expr rest ∨
          quoted.Refuses (c :: tail ++ rest) ∧ (reference.Takes (c :: tail) expr rest ∨
            reference.Refuses (c :: tail ++ rest) ∧ ((group inner).Takes (c :: tail) expr rest ∨
              (group inner).Refuses (c :: tail ++ rest) ∧ last))) := by
      have paren : (c :: tail ++ rest).head? ≠ some '(' := by
        intro same
        cases same
        cases starts
      exact .inr ⟨refuses_number_of_head (stops_cons.2 (startsNumeral_of_startsIdentifier starts)),
        .inr ⟨refuses_quoted_of_head (stops_cons.2 (startsQuoted_of_startsIdentifier starts)),
          .inr ⟨refuses_reference_of_head (stops_cons.2 (startsReference_of_startsIdentifier starts)),
            .inr ⟨refuses_group_of_head paren, holds⟩⟩⟩⟩
    intro found
    obtain takes | takes | takes | takes | takes | ⟨refuses, takes⟩ | ⟨refuses, refuses', takes⟩ := found
    · exact .inl takes
    · obtain ⟨quote, body, rfl | rfl, rfl, -⟩ := takes_quoted.1 takes
      · exact .inr ⟨refuses_number_of_head (stops_cons.2 (by decide)), .inl takes⟩
      · exact .inr ⟨refuses_number_of_head (stops_cons.2 (by decide)), .inl takes⟩
    · obtain ⟨sigil, name, rfl | rfl, rfl, -⟩ := takes_reference.1 takes
      · exact .inr ⟨refuses_number_of_head (stops_cons.2 (by decide)),
          .inr ⟨refuses_quoted_of_head (stops_cons.2 (by decide)), .inl takes⟩⟩
      · exact .inr ⟨refuses_number_of_head (stops_cons.2 (by decide)),
          .inr ⟨refuses_quoted_of_head (stops_cons.2 (by decide)), .inl takes⟩⟩
    · obtain ⟨inside, gap, rfl, -⟩ := (takes_group proceeds).1 takes
      exact .inr ⟨refuses_number_of_head (stops_cons.2 (by decide)),
        .inr ⟨refuses_quoted_of_head (stops_cons.2 (by decide)),
          .inr ⟨refuses_reference_of_head (stops_cons.2 (by decide)), .inl takes⟩⟩⟩
    · obtain ⟨c, tail, rfl, starts⟩ := progresses_constant.head (fun _ => refuses_constant_of_head) takes
      exact word starts (.inl takes)
    · obtain ⟨c, tail, rfl, starts⟩ := (progresses_call proceeds).head (fun _ => refuses_call_of_head) takes
      exact word starts (.inr ⟨refuses, .inl takes⟩)
    · obtain ⟨c, tail, rfl, starts⟩ := progresses_bareWord.head (fun _ => refuses_bareWord_of_head) takes
      exact word starts (.inr ⟨refuses, .inr ⟨refuses', takes⟩⟩)

theorem refuses_atom_of_head {inner : Parser Expr} {text : Text} (other : Stops startsAtom (dropBlanks text)) :
    (atom inner).Refuses text :=
  refuses_bind.2 (.inr ⟨(), dropBlanks text, rfl, refuses_token_of_head other⟩)

theorem takes_atom {inner : Parser Expr} (proceeds : inner.Proceeds) {taken rest : Text} {expr : Expr} :
    (atom inner).Takes taken expr rest ↔
      ∃ gap body, taken = gap ++ body ∧ (∀ c ∈ gap, isBlank c = true) ∧ Stops isBlank (body ++ rest) ∧
        (token inner).Takes body expr rest := by
  change (blanks >>= fun _ => token inner).Takes taken expr rest ↔ _
  rw [takes_bind proceeds_blanks fun _ => (progresses_token proceeds).proceeds]
  simp only [takes_blanks]
  constructor
  · intro found
    obtain ⟨_, gap, body, rfl, ⟨blank, stops⟩, takes⟩ := found
    exact ⟨gap, body, rfl, blank, stops, takes⟩
  · intro found
    obtain ⟨gap, body, rfl, blank, stops, takes⟩ := found
    exact ⟨(), gap, body, rfl, ⟨blank, stops⟩, takes⟩

def startsUnary (c : Char) : Bool := c == '-' || startsAtom c

theorem takes_negated {operand : Parser Expr} (proceeds : operand.Proceeds) {taken rest : Text} {expr : Expr} :
    (negated operand).Takes taken expr rest ↔
      ∃ gap written value, taken = gap ++ '-' :: written ∧ (∀ c ∈ gap, isBlank c = true) ∧
        operand.Takes written value rest ∧ expr = .negate value := by
  simp (disch := grind) only [negated, takes_blanks_bind, takes_char_bind, takes_bind_pure]
  constructor
  · intro found
    obtain ⟨gap, _, rfl, blank, -, written, rfl, value, takes, rfl⟩ := found
    exact ⟨gap, written, value, rfl, blank, takes, rfl⟩
  · intro found
    obtain ⟨gap, written, value, rfl, blank, takes, rfl⟩ := found
    exact ⟨gap, _, rfl, blank, stops_cons.2 (by decide), written, rfl, value, takes, rfl⟩

theorem refuses_negated {operand : Parser Expr} {text : Text} :
    (negated operand).Refuses text ↔ ∀ left, dropBlanks text = '-' :: left → operand.Refuses left := by
  rw [negated, refuses_blanks_bind]
  constructor
  · intro refuses left same
    have dash : char '-' ('-' :: left) = .ok ((), left) := char_eq_ok.2 rfl
    rw [same, refuses_bind_of_reads dash, refuses_bind_pure] at refuses
    exact refuses
  · intro refuses
    obtain fails | ⟨_, left, reads⟩ := refuses_or_reads (char '-') (dropBlanks text)
    · exact refuses_bind.2 (.inl fails)
    · rw [refuses_bind_of_reads reads, refuses_bind_pure]
      exact refuses left (char_eq_ok.1 reads)

theorem takes_inverted {operand : Parser Expr} (proceeds : operand.Proceeds) {taken rest : Text} {expr : Expr} :
    (inverted operand).Takes taken expr rest ↔
      ∃ gap written value, taken = gap ++ ("not".toList ++ written) ∧ (∀ c ∈ gap, isBlank c = true) ∧
        Stops Name.continues (written ++ rest) ∧ operand.Takes written value rest ∧ expr = .not value := by
  simp (disch := grind) only [inverted, takes_blanks_bind, takes_keyword_bind, takes_bind_pure]
  constructor
  · intro found
    obtain ⟨gap, _, rfl, blank, -, written, rfl, stops, value, takes, rfl⟩ := found
    exact ⟨gap, written, value, rfl, blank, stops, takes, rfl⟩
  · intro found
    obtain ⟨gap, written, value, rfl, blank, stops, takes, rfl⟩ := found
    exact ⟨gap, _, rfl, blank, stops_cons.2 (by decide), written, rfl, stops, value, takes, rfl⟩

theorem refuses_inverted {operand : Parser Expr} {text : Text} :
    (inverted operand).Refuses text ↔
      ∀ left, dropBlanks text = "not".toList ++ left → Stops Name.continues left → operand.Refuses left := by
  rw [inverted, refuses_blanks_bind]
  constructor
  · intro refuses left same stops
    have word : keyword "not" ("not".toList ++ left) = .ok ((), left) := keyword_eq_ok.2 ⟨rfl, stops⟩
    rw [same, refuses_bind_of_reads word, refuses_bind_pure] at refuses
    exact refuses
  · intro refuses
    obtain fails | ⟨_, left, reads⟩ := refuses_or_reads (keyword "not") (dropBlanks text)
    · exact refuses_bind.2 (.inl fails)
    · obtain ⟨same, stops⟩ := keyword_eq_ok.1 reads
      rw [refuses_bind_of_reads reads, refuses_bind_pure]
      exact refuses left same stops

section
variable {inner : Parser Expr} (proceeds : inner.Proceeds)
include proceeds

theorem takes_unary {taken rest : Text} {expr : Expr} :
    (unary inner).Takes taken expr rest ↔
      (negated (unary inner)).Takes taken expr rest ∨ (inverted (unary inner)).Takes taken expr rest ∨
        (inverted (unary inner)).Refuses (taken ++ rest) ∧ (atom inner).Takes taken expr rest := by
  have operand := (progresses_unary proceeds).proceeds
  have undashed {text : Text} (other : (dropBlanks text).head? ≠ some '-') : (negated (unary inner)).Refuses text := by
    rw [refuses_negated]
    intro left dash
    rw [dash] at other
    exact absurd rfl other
  rw [unary_eq proceeds, takes_orElse, takes_orElse, ← unary_eq proceeds]
  constructor
  · intro found
    obtain takes | ⟨-, takes | takes⟩ := found
    · exact .inl takes
    · exact .inr (.inl takes)
    · exact .inr (.inr takes)
  · intro found
    obtain takes | takes | ⟨refuses, takes⟩ := found
    · exact .inl takes
    · obtain ⟨gap, written, value, rfl, blank, -⟩ := (takes_inverted operand).1 takes
      refine .inr ⟨undashed ?_, .inl takes⟩
      have letter : Stops isBlank ("not".toList ++ written ++ rest) := stops_cons.2 (by decide)
      rw [List.append_assoc, dropBlanks_append blank letter]
      intro same
      cases same
    · obtain ⟨gap, body, rfl, blank, stops, token⟩ := (takes_atom proceeds).1 takes
      obtain ⟨c, tail, rfl, starts⟩ := (progresses_token proceeds).head (fun _ => refuses_token_of_head) token
      refine .inr ⟨undashed ?_, .inr ⟨refuses, takes⟩⟩
      rw [List.append_assoc, dropBlanks_append blank stops]
      intro same
      cases same
      cases starts

theorem refuses_unary_of_head {text : Text} (other : Stops startsUnary (dropBlanks text)) :
    (unary inner).Refuses text := by
  rw [unary_eq proceeds, refuses_orElse, refuses_orElse, refuses_negated, refuses_inverted]
  refine ⟨fun left same => ?_, fun left same _ => ?_, refuses_atom_of_head (other.mono ?_)⟩
  · exact absurd (other '-' (by rw [same]; rfl)) (by decide)
  · exact absurd (other 'n' (by rw [same]; rfl)) (by decide)
  · intro c starts
    simp [startsUnary, starts]

end

theorem takes_item {σ : Type} {operator : Parser σ} {operand : Parser Expr} (symbol : operator.Proceeds)
    (proceeds : operand.Proceeds) {taken rest : Text} {joined : σ} {right : Expr} :
    (item operator operand).Takes taken (joined, right) rest ↔
      ∃ gap sign written, taken = gap ++ (sign ++ written) ∧ (∀ c ∈ gap, isBlank c = true) ∧
        Stops isBlank (sign ++ (written ++ rest)) ∧ operator.Takes sign joined (written ++ rest) ∧
        operand.Takes written right rest := by
  simp (disch := grind) only [item, takes_blanks_bind, takes_bind symbol, takes_bind_pure, Prod.mk.injEq]
  constructor
  · intro found
    obtain ⟨gap, _, rfl, blank, stops, _, sign, written, rfl, first, _, takes, rfl, rfl⟩ := found
    rw [List.append_assoc] at stops
    exact ⟨gap, sign, written, rfl, blank, stops, first, takes⟩
  · intro found
    obtain ⟨gap, sign, written, rfl, blank, stops, first, takes⟩ := found
    rw [← List.append_assoc] at stops
    exact ⟨gap, _, rfl, blank, stops, joined, sign, written, rfl, first, right, takes, rfl, rfl⟩

theorem refuses_item {σ : Type} {operator : Parser σ} {operand : Parser Expr} {text : Text}
    (refuses : operator.Refuses (dropBlanks text)) : (item operator operand).Refuses text :=
  refuses_blanks_bind.2 (refuses_bind.2 (.inl refuses))

theorem takes_chain {σ : Type} {join : σ → Expr → Expr → Expr} {operator : Parser σ} {operand : Parser Expr}
    (symbol : operator.Progresses) (proceeds : operand.Proceeds) {taken rest : Text} {expr : Expr} :
    (chain join operator operand).Takes taken expr rest ↔
      ∃ start others first second, taken = first ++ second ∧ operand.Takes first start (second ++ rest) ∧
        (many (item operator operand)).Takes second others rest ∧
        expr = others.foldl (fun left (joined, right) => join joined left right) start := by
  have items := proceeds_many (progresses_item symbol proceeds).proceeds
  change (operand >>= fun start => many (item operator operand) >>= fun others =>
    pure (others.foldl (fun left (joined, right) => join joined left right) start)).Takes taken expr rest ↔ _
  rw [takes_bind proceeds fun _ => items.bind fun _ => proceeds_pure _]
  simp only [takes_bind_pure]
  constructor
  · intro found
    obtain ⟨start, first, second, rfl, takes, others, later, rfl⟩ := found
    exact ⟨start, others, first, second, rfl, takes, later, rfl⟩
  · intro found
    obtain ⟨start, others, first, second, rfl, takes, later, rfl⟩ := found
    exact ⟨start, first, second, rfl, takes, others, later, rfl⟩

/-- A comparison, if there is one. -/
def compared (left : Expr) : Option (Operator × Expr) → Expr
  | none => left
  | some (operator, right) => .binary operator left right

theorem comparison_eq (inner : Parser Expr) : comparison inner = (do
    let left ← sum inner
    let found ← optional (item comparisonOperator (sum inner))
    return compared left found) := by
  refine congrArg (sum inner >>= ·) (funext fun left => ?_)
  refine congrArg (optional (item comparisonOperator (sum inner)) >>= ·) (funext fun found => ?_)
  cases found <;> rfl

theorem takes_comparison {inner : Parser Expr} (proceeds : inner.Proceeds) {taken rest : Text} {expr : Expr} :
    (comparison inner).Takes taken expr rest ↔
      (sum inner).Takes taken expr rest ∧ (item comparisonOperator (sum inner)).Refuses rest ∨
        ∃ operator left right first second, taken = first ++ second ∧ (sum inner).Takes first left (second ++ rest) ∧
          (item comparisonOperator (sum inner)).Takes second (operator, right) rest ∧
          expr = .binary operator left right := by
  have operand := (progresses_sum proceeds).proceeds
  have items := (progresses_item progresses_comparisonOperator operand).proceeds
  rw [comparison_eq, takes_bind operand fun _ => (proceeds_optional items).bind fun _ => proceeds_pure _]
  simp only [takes_bind_pure, takes_optional]
  constructor
  · intro ends
    obtain ⟨left, first, second, rfl, takes, _, ⟨⟨operator, value⟩, rfl, item⟩ | ⟨rfl, rfl, refuses⟩, rfl⟩ := ends
    · exact .inr ⟨operator, left, value, first, second, rfl, takes, item, rfl⟩
    · rw [List.append_nil]
      exact .inl ⟨takes, refuses⟩
  · intro parts
    obtain ⟨takes, refuses⟩ | ⟨operator, left, right, first, second, rfl, takes, item, rfl⟩ := parts
    · exact ⟨expr, taken, [], (List.append_nil _).symm, takes, none, .inr ⟨rfl, rfl, refuses⟩, rfl⟩
    · exact ⟨left, first, second, rfl, takes, some (operator, right), .inl ⟨_, rfl, item⟩, rfl⟩

end StyleScript.Expr.Grammar
