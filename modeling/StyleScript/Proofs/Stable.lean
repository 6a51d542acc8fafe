import StyleScript.Proofs.Extent

/-! Every level of the grammar is stable. An operand of a chain is followed by the rest of the
chain, which is the same before and after; only the operand that stands last sees the new rest. -/

namespace StyleScript.Expr.Grammar
open Reading StyleScript.Parser Text

theorem refuses_unary_paren {text : Text} :
    (unary parser).Refuses ('(' :: text) ↔ (group parser).Refuses ('(' :: text) := by
  have word : Stops Name.startsIdentifier ('(' :: text) := stops_cons.2 (by decide)
  have here : blanks ('(' :: text) = .ok ((), '(' :: text) := rfl
  rw [unary_eq progresses_expr.proceeds, refuses_orElse, refuses_orElse, refuses_negated, refuses_inverted]
  change _ ∧ _ ∧ (blanks >>= fun _ => token parser).Refuses ('(' :: text) ↔ _
  rw [refuses_bind_of_reads here]
  simp only [token, refuses_orElse]
  constructor
  · intro found
    obtain ⟨_, _, _, _, _, refuses, _⟩ := found
    exact refuses
  · intro refuses
    refine ⟨fun left same => ?_, fun left same => ?_, refuses_number_of_head (stops_cons.2 (by decide)),
      refuses_quoted_of_head (stops_cons.2 (by decide)), refuses_reference_of_head (stops_cons.2 (by decide)), refuses,
      refuses_constant_of_head word, refuses_call_of_head word, refuses_bareWord_of_head word⟩
    · cases same
    · cases same

/-- What stands between the parentheses of a call is a group if it is one argument. -/
theorem refuses_group_iff {inside rest : Text} {values : List Text}
    (takes : (arguments parser).Takes inside values rest)
    (ends : Unparenthesized rest) : (group parser).Refuses ('(' :: (inside ++ rest)) ↔ values.length ≠ 1 := by
  have proceeds := progresses_expr.proceeds
  have progresses := progresses_nextArgument proceeds
  have opens : char '(' ('(' :: (inside ++ rest)) = .ok ((), inside ++ rest) := char_eq_ok.2 rfl
  rw [group, refuses_bind_of_reads opens]
  obtain ⟨rfl, rfl, -⟩ | ⟨value, others, first, second, rfl, rfl, argument, later⟩ := (takes_arguments proceeds).1 takes
  · exact iff_of_true (refuses_bind.2 (.inl ends.refuses)) (by decide)
  · obtain ⟨gap, expr, rfl, blank, stops, reads⟩ := (takes_argument proceeds).1 argument
    have here : parser (gap ++ value ++ second ++ rest) = .ok (expr, second ++ rest) := by
      rw [← unindented_expr, List.append_assoc, List.append_assoc, dropBlanks_append blank stops]
      exact reads
    rw [refuses_bind_of_reads here, refuses_blanks_bind]
    obtain ⟨rfl, rfl, -⟩ | ⟨_, _, item, more, rfl, rfl, item, -⟩ := (takes_many progresses).1 later
    · refine iff_of_false (fun refuses => ?_) (fun different => different rfl)
      obtain ⟨tail, closed⟩ : ∃ tail, dropBlanks rest = ')' :: tail := List.head?_eq_some_iff.1 ends
      have closes : char ')' (dropBlanks rest) = .ok ((), tail) := char_eq_ok.2 closed
      rw [List.nil_append, refuses_bind_of_reads closes] at refuses
      exact not_refuses_pure _ _ refuses
    · refine iff_of_true (refuses_bind.2 (.inl (refuses_char.2 ?_))) (by simp)
      obtain ⟨gap, written, rfl, blank, -⟩ := (takes_nextArgument proceeds).1 item
      have comma : Stops isBlank (',' :: written ++ (more ++ rest)) := stops_cons.2 (by decide)
      rw [List.append_assoc, List.append_assoc, dropBlanks_append blank comma]
      intro same
      cases same

/-- If a text begins with a name and also with a word that ends where names do, the two agree. -/
theorem name_eq_of_append {name word rest left : Text} (identifier : Name.isIdentifier name = true)
    (letters : word.all Name.continues = true) (stops : Stops Name.continues rest)
    (other : Stops Name.continues left) (same : name ++ rest = word ++ left) : name = word ∧ rest = left := by
  have one := takeWhile_append_of_stops (Name.continues_of_isIdentifier identifier) stops
  have two := takeWhile_append_of_stops (List.all_eq_true.1 letters) other
  rw [same] at one
  exact ⟨one.1.symm.trans two.1, one.2.symm.trans two.2⟩

/-- What the word of a bare `not` or of a call named `not` would need, it still lacks. -/
theorem refuses_not_of_token {size : Nat} (stable : Stable size parser) {taken rest next : Text} {expr : Expr}
    (short : taken.length ≤ size) (follows : Follows (EndsInNot taken expr) rest next)
    (takes : (token parser).Takes taken expr rest)
    (refuses : ∀ left, taken ++ rest = "not".toList ++ left → Stops Name.continues left → (unary parser).Refuses left)
    {left : Text} (same : taken ++ next = "not".toList ++ left) (stops : Stops Name.continues left) :
    (unary parser).Refuses left := by
  have letters : "not".toList.all Name.continues = true := by decide
  obtain number | quote | sigil | paren | word | ⟨-, call⟩ | ⟨-, -, bare⟩ :=
    (takes_token progresses_expr.proceeds).1 takes
  · obtain ⟨c, tail, rfl, starts⟩ := progresses_number.head (fun _ => refuses_number_of_head) number
    have head : some c = some 'n' := congrArg List.head? same
    cases head
    cases starts
  · obtain ⟨quote, body, rfl | rfl, rfl, -⟩ := takes_quoted.1 quote <;> cases same
  · obtain ⟨sigil, name, rfl | rfl, rfl, -⟩ := takes_reference.1 sigil <;> cases same
  · obtain ⟨inside, gap, rfl, -⟩ := (takes_group progresses_expr.proceeds).1 paren
    cases same
  · obtain ⟨member, -⟩ := takes_constant.1 word
    simp only [constants, List.mem_cons, Prod.mk.injEq, List.not_mem_nil, or_false] at member
    obtain ⟨rfl, -⟩ | ⟨rfl, -⟩ | ⟨rfl, -⟩ := member <;> cases same
  · obtain ⟨name, values, inside, gap, rfl, identifier, blank, arguments, rfl⟩ :=
      (takes_call progresses_expr.proceeds).1 call
    simp only [List.length_append, List.length_cons] at short
    have paren (text : Text) : Stops Name.continues ('(' :: text) := stops_cons.2 (by decide)
    rw [List.append_assoc] at same
    obtain ⟨rfl, rfl⟩ := name_eq_of_append identifier letters (paren _) stops same
    have before := refuses ('(' :: (inside ++ (gap ++ ')' :: rest))) (by simp) (paren _)
    have argumentsNext := arguments_follow stable (by omega) (unparenthesized_append blank rest)
      (unparenthesized_append blank next) arguments
    rw [refuses_unary_paren, refuses_group_iff arguments (unparenthesized_append blank rest)] at before
    have after := (refuses_group_iff argumentsNext (unparenthesized_append blank next)).2 before
    simpa using refuses_unary_paren.2 after
  · obtain ⟨identifier, rfl, ends⟩ := takes_bareWord.1 bare
    obtain ⟨rfl, rfl⟩ := name_eq_of_append identifier letters (follows.stops_name ends) stops same
    exact follows.unary ⟨List.suffix_refl _, rfl⟩ (refuses rest rfl ends)

theorem token_follows {size : Nat} (stable : Stable size parser) {bare : Prop} {taken rest next : Text} {expr : Expr}
    (short : taken.length ≤ size) (follows : Follows bare rest next) (takes : (token parser).Takes taken expr rest) :
    (token parser).Takes taken expr next := by
  rw [takes_token progresses_expr.proceeds] at takes ⊢
  obtain number | quote | sigil | paren | word | ⟨refuses, call⟩ | ⟨refuses, -, bare⟩ := takes
  · exact .inl (number_follows follows number)
  · exact .inr (.inl (takes_quoted.2 (takes_quoted.1 quote)))
  · exact .inr (.inr (.inl (reference_follows follows sigil)))
  · exact .inr (.inr (.inr (.inl (group_follows stable short paren next))))
  · exact .inr (.inr (.inr (.inr (.inl (constant_follows follows word)))))
  · exact .inr (.inr (.inr (.inr (.inr (.inl (call_follows stable short refuses call next))))))
  · exact .inr (.inr (.inr (.inr (.inr (.inr (bareWord_follows follows refuses bare))))))

theorem stable_zero (parser : Parser Expr) : Stable 0 parser :=
  fun _ _ _ _ short => absurd short (Nat.not_lt_zero _)

theorem stable_unary {size : Nat} (stable : Stable size parser) : Stable (size + 1) (unary parser) := by
  have proceeds := progresses_expr.proceeds
  have operand := (progresses_unary proceeds).proceeds
  -- the operand of a unary operator is shorter by the operator
  suffices within : ∀ bound ≤ size + 1, Stable bound (unary parser) from within _ (Nat.le_refl _)
  intro bound
  induction bound with
  | zero => exact fun _ => stable_zero _
  | succ bound ih =>
    intro below taken expr rest next short takes follows
    have shorter := ih (by omega)
    rw [takes_unary proceeds] at takes ⊢
    obtain negation | inversion | ⟨refuses, here⟩ := takes
    · obtain ⟨gap, written, value, rfl, blank, reads, rfl⟩ := (takes_negated operand).1 negation
      have nonempty := (progresses_unary proceeds).takes_ne_nil reads
      have weaker := follows.weaken fun ends : EndsInNot written value =>
        (ends.append ['-'] rfl).append gap rfl
      simp only [List.length_append, List.length_cons] at short
      exact .inl ((takes_negated operand).2
        ⟨gap, written, value, rfl, blank, shorter _ _ _ _ (by omega) reads weaker, rfl⟩)
    · obtain ⟨gap, written, value, rfl, blank, stops, reads, rfl⟩ := (takes_inverted operand).1 inversion
      have nonempty := (progresses_unary proceeds).takes_ne_nil reads
      have weaker := follows.weaken fun ends : EndsInNot written value =>
        (ends.append "not".toList rfl).append gap rfl
      have ends : Stops Name.continues (written ++ next) :=
        (stops_congr (head?_append_congr nonempty _ _)).1 stops
      have letters : "not".toList.length = 3 := rfl
      rw [List.length_append, List.length_append, letters] at short
      exact .inr (.inl ((takes_inverted operand).2
        ⟨gap, written, value, rfl, blank, ends, shorter _ _ _ _ (by omega) reads weaker, rfl⟩))
    · obtain ⟨gap, body, rfl, blank, stops, reads⟩ := (takes_atom proceeds).1 here
      have nonempty := (progresses_token proceeds).takes_ne_nil reads
      have stopsNext : Stops isBlank (body ++ next) := (stops_congr (head?_append_congr nonempty _ _)).1 stops
      have weaker := follows.weaken fun ends : EndsInNot body expr => ends.append gap rfl
      rw [List.length_append] at short
      refine .inr (.inr ⟨?_, (takes_atom proceeds).2 ⟨gap, body, rfl, blank, stopsNext,
        token_follows stable (by omega) weaker reads⟩⟩)
      rw [refuses_inverted, List.append_assoc, dropBlanks_append blank stops] at refuses
      rw [refuses_inverted, List.append_assoc, dropBlanks_append blank stopsNext]
      intro left same ends
      exact refuses_not_of_token stable (by omega) weaker reads refuses same ends

theorem Layer.not_opening {layer : Layer} {c : Char} (starts : layer.starts c = true) :
    (c == '(' || c == '.') = false := by
  cases opening : (c == '(' || c == '.') with
  | false => rfl
  | true =>
    simp only [Bool.or_eq_true, beq_iff_eq] at opening
    obtain rfl | rfl := opening <;> cases layer <;> cases starts

section
variable {σ : Type} {layer : Layer} {operator : Parser σ} {operand : Parser Expr} (joins : Joins layer operator operand)
include joins

/-- Before an operator and its operand it does not matter what comes after them. -/
theorem follows_item {taken rest next : Text} {joined : σ} {right : Expr}
    (before : (item operator operand).Takes taken (joined, right) rest)
    (after : (item operator operand).Takes taken (joined, right) next) (bare : Prop) :
    Follows bare (taken ++ rest) (taken ++ next) := by
  have nonempty := (progresses_item joins.symbol joins.progresses.proceeds).takes_ne_nil before
  obtain ⟨gap, sign, written, rfl, blank, stops, symbol, reads⟩ :=
    (takes_item joins.symbol.proceeds joins.progresses.proceeds).1 before
  obtain ⟨c, tail, rfl, starts⟩ := joins.symbol.head joins.starts symbol
  have visible : isBlank c = false := stops_cons.1 stops
  have skip (text : Text) : dropBlanks (gap ++ (c :: tail ++ written) ++ text) = c :: tail ++ (written ++ text) := by
    have head : Stops isBlank (c :: tail ++ (written ++ text)) := stops_cons.2 visible
    rw [List.append_assoc, List.append_assoc, dropBlanks_append blank head]
  refine ⟨.inl (head?_append_congr nonempty _ _), ?_, fun _ refuses => ?_, fun other ends => ?_⟩
  · rcases gap with _ | ⟨d, gap⟩
    · exact stops_cons.2 (Layer.not_opening starts)
    · apply stops_cons.2
      have space := blank d List.mem_cons_self
      simp only [isBlank, Bool.or_eq_true, beq_iff_eq] at space
      obtain ((rfl | rfl) | rfl) | rfl := space <;> rfl
  · have unindented := unindented_unary progresses_expr.proceeds
    rw [Refuses, ← unindented, skip] at refuses ⊢
    exact joins.unary _ _ _ _ _ _ symbol reads refuses
  · by_cases same : other = layer
    · subst same
      exact absurd ((joins.ends _).1 ends) (not_refuses before)
    · apply other.ends_of_head
      rw [skip]
      exact stops_cons.2 (Layer.starts_unique starts same)

theorem item_follows {size : Nat} (stable : Stable size operand) {taken rest next : Text} {joined : σ} {right : Expr}
    (short : taken.length < size) (takes : (item operator operand).Takes taken (joined, right) rest)
    (follows : Follows (EndsInNot taken right) rest next) :
    (item operator operand).Takes taken (joined, right) next := by
  have takes_iff (rest : Text) : (item operator operand).Takes taken (joined, right) rest ↔ _ :=
    takes_item joins.symbol.proceeds joins.progresses.proceeds
  obtain ⟨gap, sign, written, rfl, blank, stops, symbol, reads⟩ := (takes_iff rest).1 takes
  have nonempty := joins.progresses.takes_ne_nil reads
  have weaker := follows.weaken fun ends : EndsInNot written right => (ends.append sign rfl).append gap rfl
  simp only [List.length_append] at short
  have same : (written ++ rest).head? = (written ++ next).head? := head?_append_congr nonempty _ _
  have symbolNext := joins.firm _ _ _ _ symbol same
  obtain ⟨c, tail, rfl, -⟩ := joins.symbol.head joins.starts symbol
  exact (takes_iff next).2 ⟨gap, _, written, rfl, blank, stops_cons.2 (stops_cons.1 stops), symbolNext,
    stable _ _ _ _ (by omega) reads weaker⟩

theorem items_follow {size : Nat} (stable : Stable size operand) {bare : Prop} {rest next : Text}
    (follows : Follows bare rest next) {others : List (σ × Expr)} : ∀ {taken : Text}, taken.length < size →
    (∀ final ∈ others.getLast?, EndsInNot taken final.2 → bare) →
    (many (item operator operand)).Takes taken others rest →
    (many (item operator operand)).Takes taken others next ∧
      (others ≠ [] → ∀ other, Follows other (taken ++ rest) (taken ++ next)) := by
  have progresses := progresses_item joins.symbol joins.progresses.proceeds
  induction others with
  | nil =>
    intro taken _ _ takes
    obtain ⟨-, rfl, ends⟩ | ⟨_, _, _, _, impossible, -⟩ := (takes_many progresses).1 takes
    · have endsNext := (joins.ends _).1 (follows.layers layer ((joins.ends _).2 ends))
      exact ⟨(takes_many progresses).2 (.inl ⟨rfl, rfl, endsNext⟩), fun nonempty => absurd rfl nonempty⟩
    · cases impossible
  | cons first others ih =>
    intro taken short implies takes
    obtain ⟨impossible, -⟩ | ⟨_, _, piece, more, ⟨⟩, rfl, here, later⟩ := (takes_many progresses).1 takes
    · cases impossible
    · obtain ⟨joined, right⟩ := first
      rw [List.length_append] at short
      have inner : ∀ final ∈ others.getLast?, EndsInNot more final.2 → bare := by
        intro final member ends
        refine implies final ?_ (ends.append piece rfl)
        rw [List.getLast?_cons, member]
        rfl
      obtain ⟨laterNext, after⟩ := ih (by omega) inner later
      have follow : Follows (EndsInNot piece right) (more ++ rest) (more ++ next) := by
        rcases others with _ | ⟨second, others⟩
        · obtain ⟨-, rfl, -⟩ | ⟨_, _, _, _, impossible, -⟩ := (takes_many progresses).1 later
          · exact follows.weaken fun ends => implies (joined, right) rfl (by simpa using ends)
          · cases impossible
        · exact after (List.cons_ne_nil _ _) _
      have hereNext := item_follows joins stable (by omega) here follow
      refine ⟨(takes_many progresses).2 (.inr ⟨_, _, piece, more, rfl, rfl, hereNext, laterNext⟩), fun _ other => ?_⟩
      rw [List.append_assoc, List.append_assoc]
      exact follows_item joins here hereNext other

end

theorem last_foldl {σ : Type} {join : σ → Expr → Expr → Expr}
    (last : ∀ joined left right, (join joined left right).last = right.last) (others : List (σ × Expr)) :
    ∀ start : Expr, ∀ final ∈ others.getLast?,
      (others.foldl (fun left (joined, right) => join joined left right) start).last = final.2.last := by
  induction others with
  | nil =>
    intro start final member
    cases member
  | cons first others ih =>
    intro start final member
    rcases others with _ | ⟨second, others⟩
    · cases member
      exact last _ _ _
    · rw [List.getLast?_cons_cons] at member
      exact ih _ final member

theorem stable_chain {σ : Type} {layer : Layer} {operator : Parser σ} {operand : Parser Expr}
    (join : σ → Expr → Expr → Expr) (joins : Joins layer operator operand)
    (last : ∀ joined left right, (join joined left right).last = right.last) {size : Nat}
    (stable : Stable size operand) : Stable size (chain join operator operand) := by
  intro taken expr rest next short takes follows
  have takes_iff (rest : Text) : (chain join operator operand).Takes taken expr rest ↔ _ :=
    takes_chain joins.symbol joins.progresses.proceeds
  obtain ⟨start, others, first, second, rfl, operand, items, rfl⟩ := (takes_iff rest).1 takes
  rw [List.length_append] at short
  have implies : ∀ final ∈ others.getLast?, EndsInNot second final.2 →
      EndsInNot (first ++ second) (others.foldl (fun left (joined, right) => join joined left right) start) :=
    fun final member ends => ends.append first (last_foldl last others start final member)
  obtain ⟨itemsNext, after⟩ := items_follow joins stable follows (by omega) implies items
  refine (takes_iff next).2 ⟨start, others, first, second, rfl, stable _ _ _ _ (by omega) operand ?_, itemsNext, rfl⟩
  rcases others with _ | ⟨other, others⟩
  · have progresses := progresses_item joins.symbol joins.progresses.proceeds
    obtain ⟨-, rfl, -⟩ | ⟨_, _, _, _, impossible, -⟩ := (takes_many progresses).1 items
    · exact follows.weaken fun ends => by simpa using ends
    · cases impossible
  · exact after (List.cons_ne_nil _ _) _

theorem stable_comparison {size : Nat} (stable : Stable size (sum parser)) : Stable size (comparison parser) := by
  intro taken expr rest next short takes follows
  rw [takes_comparison progresses_expr.proceeds] at takes ⊢
  obtain ⟨alone, ends⟩ | ⟨operator, left, right, first, second, rfl, reads, compared, rfl⟩ := takes
  · exact .inl ⟨stable _ _ _ _ short alone follows, follows.layers .comparison ends⟩
  · have nonempty := (progresses_item joins_comparison.symbol
      joins_comparison.progresses.proceeds).takes_ne_nil compared
    have length := List.length_pos_iff.2 nonempty
    rw [List.length_append] at short
    have weaker := follows.weaken fun ends : EndsInNot second right => ends.append first rfl
    have comparedNext := item_follows joins_comparison stable (by omega) compared weaker
    have before := follows_item joins_comparison compared comparedNext (EndsInNot first left)
    exact .inr ⟨operator, left, right, first, second, rfl, stable _ _ _ _ (by omega) reads before, comparedNext, rfl⟩

theorem stable_disjunction {size : Nat} (stable : Stable size parser) : Stable (size + 1) (disjunction parser) := by
  have products : Stable (size + 1) (product parser) :=
    stable_chain .binary joins_product (fun _ _ _ => rfl) (stable_unary stable)
  have sums : Stable (size + 1) (sum parser) := stable_chain .binary joins_sum (fun _ _ _ => rfl) products
  have conjunctions : Stable (size + 1) (conjunction parser) :=
    stable_chain (fun _ => .both) joins_conjunction (fun _ _ _ => rfl) (stable_comparison sums)
  exact stable_chain (fun _ => .either) joins_disjunction (fun _ _ _ => rfl) conjunctions

theorem stable_expr : ∀ size, Stable size parser
  | 0 => stable_zero parser
  | size + 1 => by
    have stable := stable_disjunction (stable_expr size)
    rw [← parser_eq] at stable
    exact stable

end StyleScript.Expr.Grammar

namespace StyleScript.Expr
open Reading StyleScript.Parser Text Grammar

/-- An expression is taken alike before every rest that may follow it. -/
theorem takes_of_follows {taken rest next : Text} {expr : Expr} (takes : parser.Takes taken expr rest)
    (follows : Follows (EndsInNot taken expr) rest next) : parser.Takes taken expr next :=
  stable_expr (taken.length + 1) _ _ _ _ (Nat.lt_succ_self _) takes follows

theorem takes_of_closes {taken rest next : Text} {expr : Expr} (takes : parser.Takes taken expr rest)
    (closes : Closes next) : parser.Takes taken expr next :=
  takes_of_follows takes (closes.follows _ _)

end StyleScript.Expr
