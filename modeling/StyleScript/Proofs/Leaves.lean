import StyleScript.Proofs.Chains
import StyleScript.Proofs.Rereading

/-! The leaves of an expression as they can be written. Each is taken whole before everything that
is apart from it; the arguments of a call may be any texts that are expressions by themselves. -/

namespace StyleScript.Expr.Grammar
open Reading StyleScript.Parser Text

theorem Apart.stops {rest : Text} (apart : Apart rest) {test : Char → Bool}
    (within : ∀ c, test c = true → (Name.continues c || c == '%' || c == '(' || c == '.') = true) : Stops test rest :=
  Stops.mono apart within

theorem Apart.stops_name {rest : Text} (apart : Apart rest) : Stops Name.continues rest :=
  apart.stops fun c inside => by simp [inside]

theorem Apart.head_ne {rest : Text} (apart : Apart rest) {c : Char}
    (mark : (Name.continues c || c == '%' || c == '(' || c == '.') = true) : rest.head? ≠ some c := by
  intro found
  have impossible : true = false := mark.symm.trans (apart c found)
  cases impossible

/-- A token is an operand unless it is the word `not` before one. -/
theorem unary_of_token {taken rest : Text} {expr : Expr} (takes : (token parser).Takes taken expr rest)
    (other : ∀ left, taken ++ rest = "not".toList ++ left → Stops Name.continues left → (unary parser).Refuses left) :
    (unary parser).Takes taken expr rest := by
  have proceeds := progresses_expr.proceeds
  obtain ⟨c, tail, rfl, starts⟩ := (progresses_token proceeds).head (fun _ => refuses_token_of_head) takes
  have visible : Stops isBlank (c :: tail ++ rest) := by
    apply stops_cons.2
    cases blank : isBlank c with
    | false => rfl
    | true =>
      simp only [isBlank, Bool.or_eq_true, beq_iff_eq] at blank
      obtain ((rfl | rfl) | rfl) | rfl := blank <;> cases starts
  refine (takes_unary proceeds).2 (.inr (.inr ⟨?_, (takes_atom proceeds).2 ⟨[], _, rfl, ?_, visible, takes⟩⟩))
  · rw [refuses_inverted, ← List.nil_append (c :: tail ++ rest), dropBlanks_append (by simp) visible]
    exact other
  · intro d member
    cases member

/-- A text that begins with another letter is not that word. -/
theorem unary_of_token_head {c : Char} {tail rest : Text} {expr : Expr}
    (takes : (token parser).Takes (c :: tail) expr rest) (different : c ≠ 'n') :
    (unary parser).Takes (c :: tail) expr rest := by
  apply unary_of_token takes
  intro left same stops
  have head : some c = some 'n' := congrArg List.head? same
  cases head
  exact absurd rfl different

/-- A name that is not the word leaves it behind as soon as a name ends. -/
theorem unary_of_token_name {name tail rest : Text} {expr : Expr} (identifier : Name.isIdentifier name = true)
    (different : name ≠ "not".toList) (ends : Stops Name.continues (tail ++ rest))
    (takes : (token parser).Takes (name ++ tail) expr rest) : (unary parser).Takes (name ++ tail) expr rest := by
  apply unary_of_token takes
  intro left same stops
  rw [List.append_assoc] at same
  exact absurd (name_eq_of_append identifier (by decide) ends stops same).1 different

theorem unary_of_token_word {name rest : Text} {expr : Expr} (identifier : Name.isIdentifier name = true)
    (different : name ≠ "not".toList) (apart : Apart rest) (takes : (token parser).Takes name expr rest) :
    (unary parser).Takes name expr rest := by
  apply unary_of_token takes
  intro left same stops
  exact absurd (name_eq_of_append identifier (by decide) apart.stops_name stops same).1 different

section
variable {rest : Text} (apart : Apart rest)
include apart

theorem number_fits {spelling : Numeral.Spelling} {unit : Text} (proper : spelling.Proper)
    (letters : Numeral.IsUnit unit) :
    number.Takes (spelling.text ++ unit) (.literal (.number (Binary64.ofDecimal spelling.decimal) unit)) rest := by
  have head : ∀ c, (unit ++ rest).head? = some c → c.isDigit = false ∧ c ≠ '.' := by
    intro c found
    rcases unit with _ | ⟨d, unit⟩
    · have outside := apart c found
      simp only [Name.continues, Char.isAlphanum, Bool.or_eq_false_iff, beq_eq_false_iff_ne] at outside
      obtain ⟨⟨⟨⟨⟨⟨-, digit⟩, -⟩, -⟩, -⟩, -⟩, point⟩ := outside
      exact ⟨digit, point⟩
    · cases found
      obtain percent | letters := letters
      · cases percent
        decide
      · have letter := letters c List.mem_cons_self
        constructor
        · exact Name.isDigit_of_startsIdentifier (by simp [Name.startsIdentifier, letter])
        · rintro rfl
          cases letter
  refine takes_number.2 ⟨_, unit, rfl, Numeral.takes_numeral.2 ⟨spelling, unit, rfl, rfl, ?_, ?_⟩⟩
  · refine Numeral.takes_decimal.2 ⟨spelling, rfl, rfl, proper, fun c found => (head c found).1, fun _ => ?_⟩
    apply Numeral.refuses_fraction_of_head
    intro point
    exact (head '.' point).2 rfl
  · refine Numeral.takes_unit.2 ⟨rfl, ?_⟩
    obtain percent | letters := letters
    · exact .inl percent
    · exact .inr ⟨letters, apart.stops fun c alpha => by simp [Name.continues, Char.isAlphanum, alpha],
        fun _ => apart.head_ne (by decide)⟩

theorem bareWord_fits {name : Text} (identifier : Name.isIdentifier name = true)
    (different : name ∉ constants.map Prod.fst) : (token parser).Takes name (.literal (.string name false)) rest := by
  have stops := apart.stops_name
  refine (takes_token progresses_expr.proceeds).2 (.inr (.inr (.inr (.inr (.inr (.inr ⟨?_, ?_, ?_⟩))))))
  · exact refuses_constant_of_ne (Name.continues_of_isIdentifier identifier) stops different
  · have reads : Parser.identifier (name ++ rest) = .ok (name, rest) := takes_identifier.2 ⟨rfl, identifier, stops⟩
    rw [call, refuses_bind_of_reads reads]
    exact refuses_bind.2 (.inl (refuses_char.2 (apart.head_ne (by decide))))
  · exact takes_bareWord.2 ⟨identifier, rfl, stops⟩

end

/-- A text that is an expression by itself, without blanks before it. -/
def Canonical (text : Text) : Prop := (∃ expr, parser text = .ok (expr, [])) ∧ Stops isBlank text

/-- An argument with the blanks around it. -/
structure Argument where
  before : Text
  text : Text
  after : Text

structure Argument.Proper (argument : Argument) : Prop where
  canonical : Canonical argument.text
  before : ∀ c ∈ argument.before, isBlank c = true
  after : ∀ c ∈ argument.after, isBlank c = true

/-- The arguments after the first one, each behind a comma. -/
def otherArguments (others : List Argument) : Text :=
  others.flatMap fun argument => ',' :: (argument.before ++ (argument.text ++ argument.after))

def argumentList : List Argument → Text
  | [] => []
  | first :: others => first.before ++ (first.text ++ (first.after ++ otherArguments others))

theorem takes_canonical {argument : Argument} (proper : argument.Proper) {rest : Text} (closes : Closes rest) :
    (Grammar.argument parser).Takes (argument.before ++ argument.text) argument.text rest := by
  have proceeds := progresses_expr.proceeds
  obtain ⟨⟨expr, reads⟩, visible⟩ := proper.canonical
  have whole : parser.Takes argument.text expr [] := by
    rw [Takes, List.append_nil]
    exact reads
  have here := takes_of_closes whole closes
  refine (takes_argument proceeds).2 ⟨argument.before, expr, rfl, proper.before, ?_, here⟩
  exact (stops_congr (head?_append_congr (progresses_expr.takes_ne_nil here) [] rest)).1
    (by rwa [List.append_nil])

/-- The blanks that stand behind the last argument are left. -/
theorem takes_otherArguments {others : List Argument} : ∀ {gap closing : Text}, (∀ argument ∈ others, argument.Proper) →
    (∀ c ∈ gap, isBlank c = true) → (∀ c ∈ closing, isBlank c = true) →
    ∃ taken final, gap ++ (otherArguments others ++ closing) = taken ++ final ∧ (∀ c ∈ final, isBlank c = true) ∧
      ∀ rest, (many (do blanks; char ','; argument parser)).Takes taken (others.map Argument.text)
        (final ++ ')' :: rest) ∧
        Closes (taken ++ (final ++ ')' :: rest)) := by
  have proceeds := progresses_expr.proceeds
  have progresses := progresses_nextArgument proceeds
  induction others with
  | nil =>
    intro gap closing _ blank blankClosing
    have allBlank : ∀ c ∈ gap ++ closing, isBlank c = true := fun c member =>
      (List.mem_append.1 member).elim (blank c) (blankClosing c)
    refine ⟨[], gap ++ closing, rfl, allBlank, fun rest => ?_⟩
    have ends := unparenthesized_append allBlank rest
    exact ⟨(takes_many progresses).2 (.inl ⟨rfl, rfl, ends.refuses_nextArgument⟩), ends.closes⟩
  | cons first others ih =>
    intro gap closing proper blank blankClosing
    have firstProper := proper first List.mem_cons_self
    obtain ⟨taken, final, same, blankFinal, reads⟩ := ih
      (fun argument member => proper argument (List.mem_cons_of_mem _ member)) firstProper.after blankClosing
    refine ⟨gap ++ ',' :: (first.before ++ first.text) ++ taken, final, ?_, blankFinal, fun rest => ?_⟩
    · have whole : otherArguments (first :: others) ++ closing =
          ',' :: (first.before ++ (first.text ++ (first.after ++ (otherArguments others ++ closing)))) := by
        simp [otherArguments]
      rw [whole, same]
      simp
    · obtain ⟨later, closes⟩ := reads rest
      have here := (takes_nextArgument proceeds).2 ⟨gap, _, rfl, blank, takes_canonical firstProper closes⟩
      refine ⟨(takes_many progresses).2 (.inr ⟨_, _, _, taken, rfl, rfl, here, later⟩), ?_⟩
      have comma : Stops isBlank (',' :: (first.before ++ first.text) ++ (taken ++ (final ++ ')' :: rest))) :=
        stops_cons.2 (by decide)
      apply closes_of_head (c := ',') (by decide)
      rw [List.append_assoc, List.append_assoc, dropBlanks_append blank comma]
      rfl

theorem takes_argumentList {arguments : List Argument} {closing : Text}
    (proper : ∀ argument ∈ arguments, argument.Proper)
    (blank : ∀ c ∈ closing, isBlank c = true) :
    ∃ taken final, argumentList arguments ++ closing = taken ++ final ∧ (∀ c ∈ final, isBlank c = true) ∧
      ∀ rest, (Grammar.arguments parser).Takes taken (arguments.map Argument.text) (final ++ ')' :: rest) := by
  have proceeds := progresses_expr.proceeds
  cases arguments with
  | nil =>
    refine ⟨[], closing, rfl, blank, fun rest => ?_⟩
    have ends := unparenthesized_append blank rest
    exact (takes_arguments proceeds).2 (.inl ⟨rfl, rfl, ends.refuses_argument⟩)
  | cons first others =>
    have firstProper := proper first List.mem_cons_self
    obtain ⟨taken, final, same, blankFinal, reads⟩ := takes_otherArguments
      (fun argument member => proper argument (List.mem_cons_of_mem _ member)) firstProper.after blank
    refine ⟨first.before ++ first.text ++ taken, final, ?_, blankFinal, fun rest => ?_⟩
    · simp only [argumentList, List.append_assoc]
      rw [same]
    · obtain ⟨later, closes⟩ := reads rest
      have here := takes_canonical firstProper closes
      exact (takes_arguments proceeds).2 (.inr ⟨_, _, _, taken, rfl, rfl, here, later⟩)

theorem call_fits {name closing : Text} {arguments : List Argument} (identifier : Name.isIdentifier name = true)
    (different : name ∉ constants.map Prod.fst) (proper : ∀ argument ∈ arguments, argument.Proper)
    (blank : ∀ c ∈ closing, isBlank c = true) (rest : Text) :
    (token parser).Takes (name ++ '(' :: (argumentList arguments ++ (closing ++ [')'])))
      (.call name (arguments.map Argument.text)) rest := by
  have proceeds := progresses_expr.proceeds
  obtain ⟨taken, final, same, blankFinal, reads⟩ := takes_argumentList proper blank
  rw [← List.append_assoc, same, List.append_assoc]
  have paren (text : Text) : Stops Name.continues ('(' :: text) := stops_cons.2 (by decide)
  refine (takes_token proceeds).2 (.inr (.inr (.inr (.inr (.inr (.inl ⟨?_, ?_⟩))))))
  · rw [List.append_assoc]
    exact refuses_constant_of_ne (Name.continues_of_isIdentifier identifier) (paren _) different
  · exact (takes_call proceeds).2 ⟨name, _, taken, final, rfl, identifier, blankFinal, reads rest, rfl⟩

end StyleScript.Expr.Grammar
