import StyleScript.Proofs.Follow

/-! Building what the grammar takes, from the operands up. A chain is grouped from the left, so a
text that leads it must be taken whatever items come after it: it hands its tree on as the start of
the rest of the chain. -/

namespace StyleScript.Expr.Grammar
open Reading StyleScript.Parser Text

/-- No character that could go on the token before it. -/
def Apart (rest : Text) : Prop := Stops (fun c => Name.continues c || c == '%' || c == '(' || c == '.') rest

/-- How loosely a layer binds. -/
def Layer.rank : Layer → Nat
  | .product => 0
  | .sum => 1
  | .comparison => 2
  | .conjunction => 3
  | .disjunction => 4

/-- The layers below a rank can read nothing on. -/
structure Settled (rank : Nat) (rest : Text) : Prop where
  apart : Apart rest
  ends : ∀ layer : Layer, layer.rank < rank → layer.Ends rest

theorem Settled.mono {rank lower : Nat} {rest : Text} (settled : Settled rank rest) (below : lower ≤ rank) :
    Settled lower rest :=
  ⟨settled.apart, fun layer less => settled.ends layer (Nat.lt_of_lt_of_le less below)⟩

/-- A text is taken wherever the layers below a rank end after it. -/
def Fits (rank : Nat) (parser : Parser Expr) (text : Text) (expr : Expr) : Prop :=
  ∀ rest, Settled rank rest → parser.Takes text expr rest

theorem stops_of_isBlank {c : Char} (blank : isBlank c = true) {test : Char → Bool}
    (outside : [' ', '\t', '\r', '\n'].any test = false) (rest : Text) : Stops test (c :: rest) := by
  simp only [isBlank, Bool.or_eq_true, beq_iff_eq] at blank
  refine stops_cons.2 (eq_false_of_any outside ?_)
  obtain ((rfl | rfl) | rfl) | rfl := blank <;> simp

theorem Layer.visible {layer : Layer} {c : Char} (starts : layer.starts c = true) : isBlank c = false := by
  cases blank : isBlank c with
  | false => rfl
  | true =>
    simp only [isBlank, Bool.or_eq_true, beq_iff_eq] at blank
    obtain ((rfl | rfl) | rfl) | rfl := blank <;> cases layer <;> cases starts

theorem dropBlanks_gap {gap : Text} (blank : ∀ c ∈ gap, isBlank c = true) (text : Text) :
    dropBlanks (gap ++ text) = dropBlanks text := by
  induction gap with
  | nil => rfl
  | cons c gap ih =>
    rw [List.cons_append, dropBlanks_cons_of_blank (blank c List.mem_cons_self)]
    exact ih fun d member => blank d (List.mem_cons_of_mem _ member)

theorem Unindented.takes {α : Type} {parser : Parser α} (unindented : Unindented parser)
    {gap taken rest : Text} {value : α}
    (blank : ∀ c ∈ gap, isBlank c = true) (takes : parser.Takes taken value rest) :
    parser.Takes (gap ++ taken) value rest := by
  rw [Takes, List.append_assoc, ← unindented, dropBlanks_gap blank, unindented]
  exact takes

/-- An operator as it is written, with blanks on both sides. -/
structure Spaced {σ : Type} (operator : Parser σ) (joined : σ) (before sign after : Text) : Prop where
  blankBefore : ∀ c ∈ before, isBlank c = true
  blankAfter : ∀ c ∈ after, isBlank c = true
  nonemptyBefore : before ≠ []
  nonemptyAfter : after ≠ []
  symbol : ∀ c rest, isBlank c = true → operator.Takes sign joined (c :: rest)

theorem Spaced.symbol_append {σ : Type} {operator : Parser σ} {joined : σ} {before sign after : Text}
    (spaced : Spaced operator joined before sign after) (rest : Text) : operator.Takes sign joined (after ++ rest) := by
  have blank := spaced.blankAfter
  cases after with
  | nil => exact absurd rfl spaced.nonemptyAfter
  | cons c gap => exact spaced.symbol c (gap ++ rest) (blank c List.mem_cons_self)

section
variable {σ : Type} (join : σ → Expr → Expr → Expr) (operator : Parser σ) (operand : Parser Expr)

def continued (start : Expr) : Parser Expr := do
  let others ← many (item operator operand)
  return others.foldl (fun left (joined, right) => join joined left right) start

/-- The chain takes a text at its beginning, whatever items it goes on with. -/
def Leads (layer : Layer) (text : Text) (expr : Expr) : Prop :=
  ∀ tail result rest, Settled layer.rank (tail ++ rest) →
    (continued join operator operand expr).Takes tail result rest →
      (chain join operator operand).Takes (text ++ tail) result rest

end

section
variable {σ : Type} {join : σ → Expr → Expr → Expr} {layer : Layer} {operator : Parser σ} {operand : Parser Expr}

theorem leads_of_fits {text : Text} {expr : Expr} (fits : Fits layer.rank operand text expr) :
    Leads join operator operand layer text expr :=
  fun tail _ rest settled later => Takes.bind (fits (tail ++ rest) settled) later

theorem takes_continued {start : Expr} {taken rest : Text} {result : Expr} :
    (continued join operator operand start).Takes taken result rest ↔
      ∃ others, (many (item operator operand)).Takes taken others rest ∧
        result = others.foldl (fun left (joined, right) => join joined left right) start := by
  rw [continued, takes_bind_pure]

variable (joins : Joins layer operator operand)
include joins

theorem continued_nil (start : Expr) {rest : Text} (ends : layer.Ends rest) :
    (continued join operator operand start).Takes [] start rest := by
  have progresses := progresses_item joins.symbol joins.progresses.proceeds
  have none : (many (item operator operand)).Takes [] [] rest :=
    (takes_many progresses).2 (.inl ⟨rfl, rfl, (joins.ends rest).1 ends⟩)
  exact takes_continued.2 ⟨[], none, rfl⟩

theorem continued_cons {start result right : Expr} {joined : σ} {piece tail rest : Text}
    (here : (item operator operand).Takes piece (joined, right) (tail ++ rest))
    (later : (continued join operator operand (join joined start right)).Takes tail result rest) :
    (continued join operator operand start).Takes (piece ++ tail) result rest := by
  have progresses := progresses_item joins.symbol joins.progresses.proceeds
  obtain ⟨others, reads, value⟩ := takes_continued.1 later
  have items : (many (item operator operand)).Takes (piece ++ tail) ((joined, right) :: others) rest :=
    (takes_many progresses).2 (.inr ⟨_, _, piece, tail, rfl, rfl, here, reads⟩)
  exact takes_continued.2 ⟨_, items, value⟩

theorem fits_of_leads {text : Text} {expr : Expr} (leads : Leads join operator operand layer text expr) :
    Fits (layer.rank + 1) (chain join operator operand) text expr := by
  intro rest settled
  have below : Settled layer.rank ([] ++ rest) := settled.mono (Nat.le_succ _)
  have alone := leads [] expr rest below (continued_nil joins expr (settled.ends layer (Nat.lt_succ_self _)))
  rw [List.append_nil] at alone
  exact alone

variable {joined : σ} {before sign after : Text} (spaced : Spaced operator joined before sign after)
include spaced

theorem Spaced.head (text : Text) : ∃ c tail, sign ++ text = c :: tail ∧ layer.starts c = true := by
  obtain ⟨c, tail, rfl, starts⟩ := joins.symbol.head joins.starts (spaced.symbol_append [])
  exact ⟨c, tail ++ text, rfl, starts⟩

theorem Spaced.takes_item (unindented : Unindented operand) {written rest : Text} {right : Expr}
    (reads : operand.Takes written right rest) :
    (item operator operand).Takes (before ++ (sign ++ (after ++ written))) (joined, right) rest := by
  refine (Grammar.takes_item joins.symbol.proceeds joins.progresses.proceeds).2
    ⟨before, sign, after ++ written, rfl, spaced.blankBefore, ?_, ?_, ?_⟩
  · obtain ⟨c, tail, same, starts⟩ := spaced.head joins (after ++ written ++ rest)
    rw [same]
    exact stops_cons.2 (Layer.visible starts)
  · have symbol := spaced.symbol_append (written ++ rest)
    rw [← List.append_assoc] at symbol
    exact symbol
  · exact unindented.takes spaced.blankAfter reads

theorem Spaced.settled (text : Text) : Settled layer.rank (before ++ (sign ++ text)) := by
  obtain ⟨c, tail, same, starts⟩ := spaced.head joins text
  have visible := Layer.visible starts
  constructor
  · have blank := spaced.blankBefore
    cases before with
    | nil => exact absurd rfl spaced.nonemptyBefore
    | cons d gap => exact stops_of_isBlank (blank d List.mem_cons_self) (by decide) _
  · intro other below
    apply other.ends_of_head
    rw [same, dropBlanks_append spaced.blankBefore (stops_cons.2 visible)]
    apply stops_cons.2
    apply Layer.starts_unique starts
    intro same
    rw [same] at below
    exact Nat.lt_irrefl _ below

theorem leads_item (unindented : Unindented operand) {text written : Text} {left right : Expr}
    (leads : Leads join operator operand layer text left) (fits : Fits layer.rank operand written right) :
    Leads join operator operand layer (text ++ (before ++ (sign ++ (after ++ written)))) (join joined left right) := by
  intro tail result rest settled later
  have here := spaced.takes_item joins unindented (fits (tail ++ rest) settled)
  have settledHere := spaced.settled joins (after ++ written ++ (tail ++ rest))
  rw [List.append_assoc]
  apply leads _ result rest _ (continued_cons joins here later)
  simpa only [List.append_assoc] using settledHere

end

theorem fits_alone {text : Text} {expr : Expr} (fits : Fits 2 (sum parser) text expr) :
    Fits 3 (comparison parser) text expr := by
  intro rest settled
  rw [takes_comparison progresses_expr.proceeds]
  exact .inl ⟨fits rest (settled.mono (by decide)), settled.ends .comparison (by decide)⟩

theorem fits_compared {operator : Operator} {before sign after text written : Text} {left right : Expr}
    (spaced : Spaced comparisonOperator operator before sign after) (fits : Fits 2 (sum parser) text left)
    (other : Fits 2 (sum parser) written right) :
    Fits 3 (comparison parser) (text ++ (before ++ (sign ++ (after ++ written)))) (.binary operator left right) := by
  intro rest settled
  rw [takes_comparison progresses_expr.proceeds]
  have unindented : Unindented (sum parser) := (unindented_unary progresses_expr.proceeds).bind.bind
  have right := spaced.takes_item joins_comparison unindented (other rest (settled.mono (by decide)))
  refine .inr ⟨operator, left, _, text, _, rfl, ?_, right, rfl⟩
  apply fits
  have here : Settled 2 _ := spaced.settled joins_comparison (after ++ written ++ rest)
  simpa only [List.append_assoc] using here

end StyleScript.Expr.Grammar
