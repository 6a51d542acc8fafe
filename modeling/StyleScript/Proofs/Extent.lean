import StyleScript.Proofs.Follow

/-! How far an expression extends. The part that the grammar takes does not change when another
rest is put after it, as long as that rest refuses what the old one refused. So an expression that
was recognised inside a source reads again, and to the same tree, when its text stands alone. -/

namespace StyleScript.Expr.Grammar
open Reading StyleScript.Parser Text

/-- Texts shorter than `size` are taken alike before every rest that may follow. -/
def Stable (size : Nat) (parser : Parser Expr) : Prop :=
  ∀ taken expr rest next, taken.length < size → parser.Takes taken expr rest →
    Follows (EndsInNot taken expr) rest next → parser.Takes taken expr next

section
variable {bare : Prop} {taken rest next : Text} {expr : Expr} (follows : Follows bare rest next)
include follows

theorem number_follows (takes : number.Takes taken expr rest) : number.Takes taken expr next := by
  obtain ⟨value, unit, rfl, numeral⟩ := takes_number.1 takes
  obtain ⟨spelling, written, rfl, same, decimal, unit⟩ := Numeral.takes_numeral.1 numeral
  obtain ⟨chosen, sameText, sameValue, proper, stops, fraction⟩ := Numeral.takes_decimal.1 decimal
  refine takes_number.2 ⟨_, _, rfl, Numeral.takes_numeral.2 ⟨spelling, written, rfl, same, ?_, ?_⟩⟩
  · refine Numeral.takes_decimal.2 ⟨chosen, sameText, sameValue, proper, ?_, fun whole => ?_⟩
    · rcases written with _ | ⟨c, written⟩
      · exact follows.stops (fun c digit => by simp [Name.continues, Char.isAlphanum, digit]) stops
      · exact stops
    · apply Numeral.refuses_fraction_of_head
      rcases written with _ | ⟨c, written⟩
      · exact fun point => absurd (follows.opening '.' point) (by decide)
      · intro same
        cases same
        obtain ⟨-, percent | ⟨letters, -⟩⟩ := Numeral.takes_unit.1 unit
        · cases percent
        · exact absurd (letters '.' List.mem_cons_self) (by decide)
  · obtain ⟨-, percent | ⟨letters, stops, head⟩⟩ := Numeral.takes_unit.1 unit
    · exact Numeral.takes_unit.2 ⟨rfl, .inl percent⟩
    · refine Numeral.takes_unit.2 ⟨rfl, .inr ⟨letters, ?_, fun empty => ?_⟩⟩
      · exact follows.stops (fun c alpha => by simp [Name.continues, Char.isAlphanum, alpha]) stops
      · have apart : Stops (· == '%') rest := by
          intro c found
          rw [beq_eq_false_iff_ne]
          rintro rfl
          exact head empty found
        intro percent
        exact absurd (follows.stops (fun c same => by simp [same]) apart '%' percent) (by decide)

theorem reference_follows (takes : reference.Takes taken expr rest) : reference.Takes taken expr next := by
  obtain ⟨sigil, name, either, same, identifier, written, stops⟩ := takes_reference.1 takes
  exact takes_reference.2 ⟨sigil, name, either, same, identifier, written, follows.stops_name stops⟩

theorem constant_follows (takes : constant.Takes taken expr rest) : constant.Takes taken expr next := by
  obtain ⟨member, stops⟩ := takes_constant.1 takes
  exact takes_constant.2 ⟨member, follows.stops_name stops⟩

end

/-- A constant is refused by the name that stands there, whatever comes after the name. -/
theorem refuses_constant_of_name {name rest next : Text} (identifier : Name.isIdentifier name = true)
    (stops : Stops Name.continues rest) (other : Stops Name.continues next)
    (refuses : constant.Refuses (name ++ rest)) : constant.Refuses (name ++ next) := by
  apply refuses_constant_of_ne (Name.continues_of_isIdentifier identifier) other
  intro member
  obtain ⟨⟨word, expr⟩, found, rfl⟩ := List.mem_map.1 member
  exact not_refuses (takes_constant.2 ⟨found, stops⟩) refuses

theorem bareWord_follows {bare : Prop} {taken rest next : Text} {expr : Expr} (follows : Follows bare rest next)
    (refuses : constant.Refuses (taken ++ rest)) (takes : bareWord.Takes taken expr rest) :
    constant.Refuses (taken ++ next) ∧ (call parser).Refuses (taken ++ next) ∧ bareWord.Takes taken expr next := by
  obtain ⟨identifier, word, stops⟩ := takes_bareWord.1 takes
  have later := follows.stops_name stops
  refine ⟨refuses_constant_of_name identifier stops later refuses, ?_, takes_bareWord.2 ⟨identifier, word, later⟩⟩
  have name : Parser.identifier (taken ++ next) = .ok (taken, next) := takes_identifier.2 ⟨rfl, identifier, later⟩
  rw [call, refuses_bind_of_reads name]
  exact refuses_bind.2 (.inl (refuses_char.2 fun found => absurd (follows.opening '(' found) (by decide)))

/-- The next visible character closes a parenthesis. -/
def Unparenthesized (text : Text) : Prop := (dropBlanks text).head? = some ')'

theorem unparenthesized_append {gap : Text} (blank : ∀ c ∈ gap, isBlank c = true) (rest : Text) :
    Unparenthesized (gap ++ ')' :: rest) := by
  rw [Unparenthesized, dropBlanks_append blank (stops_cons.2 (by decide))]
  rfl

theorem Unparenthesized.closes {text : Text} (unparenthesized : Unparenthesized text) : Closes text :=
  closes_of_head (by decide) unparenthesized

theorem Unparenthesized.refuses {text : Text} (unparenthesized : Unparenthesized text) : parser.Refuses text := by
  apply refuses_expr_of_head
  intro c found
  rw [Unparenthesized] at unparenthesized
  rw [unparenthesized] at found
  cases found
  decide

theorem Unparenthesized.refuses_argument {text : Text} (unparenthesized : Unparenthesized text) :
    (argument parser).Refuses text := by
  rw [argument, refuses_blanks_bind, refuses_span, Refuses, unindented_expr]
  exact unparenthesized.refuses

theorem Unparenthesized.refuses_nextArgument {text : Text} (unparenthesized : Unparenthesized text) :
    (do blanks; char ','; argument parser : Parser Text).Refuses text := by
  rw [refuses_blanks_bind]
  refine refuses_bind.2 (.inl (refuses_char.2 ?_))
  rw [unparenthesized]
  decide

section
variable {size : Nat} (stable : Stable size parser)
include stable

theorem group_follows {taken rest : Text} {expr : Expr} (short : taken.length ≤ size)
    (takes : (group parser).Takes taken expr rest) (next : Text) : (group parser).Takes taken expr next := by
  obtain ⟨inside, gap, rfl, blank, reads⟩ := (takes_group progresses_expr.proceeds).1 takes
  refine (takes_group progresses_expr.proceeds).2 ⟨inside, gap, rfl, blank, ?_⟩
  refine stable _ _ _ _ ?_ reads ((unparenthesized_append blank next).closes.follows _ _)
  simp only [List.length_cons, List.length_append] at short
  omega

theorem argument_follows {taken value rest next : Text} (short : taken.length < size)
    (takes : (argument parser).Takes taken value rest) (closes : Closes next) :
    (argument parser).Takes taken value next := by
  obtain ⟨gap, expr, rfl, blank, stops, reads⟩ := (takes_argument progresses_expr.proceeds).1 takes
  have nonempty := progresses_expr.takes_ne_nil reads
  rw [List.length_append] at short
  refine (takes_argument progresses_expr.proceeds).2 ⟨gap, expr, rfl, blank, ?_,
    stable _ _ _ _ (by omega) reads (closes.follows _ _)⟩
  exact (stops_congr (head?_append_congr nonempty _ _)).1 stops

/-- After an argument comes a comma or the end of the call. -/
theorem nextArguments_follow {values : List Text} : ∀ {taken rest next : Text}, taken.length < size →
    Unparenthesized rest → Unparenthesized next →
    (many (do blanks; char ','; argument parser)).Takes taken values rest →
    (many (do blanks; char ','; argument parser)).Takes taken values next ∧ Closes (taken ++ next) := by
  have progresses := progresses_nextArgument progresses_expr.proceeds
  induction values with
  | nil =>
    intro taken rest next _ _ ends takes
    obtain ⟨-, rfl, -⟩ | ⟨_, _, _, _, impossible, -⟩ := (takes_many progresses).1 takes
    · exact ⟨(takes_many progresses).2 (.inl ⟨rfl, rfl, ends.refuses_nextArgument⟩), ends.closes⟩
    · cases impossible
  | cons value values ih =>
    intro taken rest next short begins ends takes
    obtain ⟨impossible, -⟩ | ⟨_, _, first, second, ⟨⟩, rfl, item, others⟩ := (takes_many progresses).1 takes
    · cases impossible
    · rw [List.length_append] at short
      obtain ⟨later, closes⟩ := ih (by omega) begins ends others
      obtain ⟨gap, written, rfl, blank, argument⟩ := (takes_nextArgument progresses_expr.proceeds).1 item
      simp only [List.length_append, List.length_cons] at short
      have here := argument_follows stable (by omega) argument closes
      refine ⟨(takes_many progresses).2 (.inr ⟨_, _, gap ++ ',' :: written, second, rfl, rfl, ?_, later⟩), ?_⟩
      · exact (takes_nextArgument progresses_expr.proceeds).2 ⟨gap, written, rfl, blank, here⟩
      · have comma : Stops isBlank (',' :: written ++ (second ++ next)) := stops_cons.2 (by decide)
        apply closes_of_head (c := ',') (by decide)
        rw [List.append_assoc, List.append_assoc, dropBlanks_append blank comma]
        rfl

theorem arguments_follow {taken rest next : Text} {values : List Text} (short : taken.length < size)
    (begins : Unparenthesized rest) (ends : Unparenthesized next)
    (takes : (arguments parser).Takes taken values rest) : (arguments parser).Takes taken values next := by
  obtain ⟨rfl, rfl, -⟩ | ⟨value, others, first, second, rfl, rfl, argument, later⟩ :=
    (takes_arguments progresses_expr.proceeds).1 takes
  · exact (takes_arguments progresses_expr.proceeds).2 (.inl ⟨rfl, rfl, ends.refuses_argument⟩)
  · rw [List.length_append] at short
    obtain ⟨follows, closes⟩ := nextArguments_follow stable (by omega) begins ends later
    exact (takes_arguments progresses_expr.proceeds).2 (.inr ⟨value, others, first, second, rfl, rfl,
      argument_follows stable (by omega) argument closes, follows⟩)

theorem call_follows {taken rest : Text} {expr : Expr} (short : taken.length ≤ size)
    (refuses : constant.Refuses (taken ++ rest)) (takes : (call parser).Takes taken expr rest) (next : Text) :
    constant.Refuses (taken ++ next) ∧ (call parser).Takes taken expr next := by
  obtain ⟨name, values, inside, gap, rfl, identifier, blank, arguments, rfl⟩ :=
    (takes_call progresses_expr.proceeds).1 takes
  simp only [List.length_append, List.length_cons] at short
  constructor
  · rw [List.append_assoc] at refuses ⊢
    exact refuses_constant_of_name identifier (stops_cons.2 (by decide)) (stops_cons.2 (by decide)) refuses
  · refine (takes_call progresses_expr.proceeds).2 ⟨name, values, inside, gap, rfl, identifier, blank, ?_, rfl⟩
    exact arguments_follow stable (by omega) (unparenthesized_append blank rest) (unparenthesized_append blank next)
      arguments

end

end StyleScript.Expr.Grammar
