import StyleScript.Proofs.ExprKnot

/-! The atoms of expressions other than groups and calls, as the texts that they take. How they
start is decided by one character, and how they stop by the character after them. -/

namespace StyleScript.Numeral
open Reading StyleScript.Parser Text

/-- Digits with a fraction or without, or a fraction alone. -/
inductive Spelling where
  | whole (digits : Text)
  | mixed (digits places : Text)
  | fraction (places : Text)
deriving DecidableEq

namespace Spelling

def text : Spelling → Text
  | .whole digits => digits
  | .mixed digits places => digits ++ '.' :: places
  | .fraction places => '.' :: places

def decimal : Spelling → Decimal
  | .whole digits => Decimal.ofDigits digits []
  | .mixed digits places => Decimal.ofDigits digits places
  | .fraction places => Decimal.ofDigits [] places

def IsDigits (text : Text) : Prop := text ≠ [] ∧ ∀ c ∈ text, c.isDigit = true

def Proper : Spelling → Prop
  | .whole digits => IsDigits digits
  | .mixed digits places => IsDigits digits ∧ IsDigits places
  | .fraction places => IsDigits places

end Spelling

open Spelling

theorem takes_digits1 {taken value rest : Text} :
    digits1.Takes taken value rest ↔ value = taken ∧ IsDigits taken ∧ Stops Char.isDigit rest := by
  rw [digits1, takes_takeWhile1, IsDigits, and_assoc]

theorem takes_fraction {taken value rest : Text} :
    fraction.Takes taken value rest ↔ taken = '.' :: value ∧ IsDigits value ∧ Stops Char.isDigit rest := by
  rw [fraction, takes_char_bind progresses_digits1.proceeds]
  simp only [takes_digits1]
  constructor
  · intro found
    obtain ⟨places, rfl, rfl, digits, stops⟩ := found
    exact ⟨rfl, digits, stops⟩
  · intro found
    obtain ⟨rfl, digits, stops⟩ := found
    exact ⟨value, rfl, rfl, digits, stops⟩

theorem refuses_fraction_of_head {text : Text} (head : text.head? ≠ some '.') : fraction.Refuses text :=
  refuses_bind.2 (.inl (refuses_char.2 head))

theorem takes_decimal {taken rest : Text} {value : Decimal} :
    decimal.Takes taken value rest ↔
      ∃ spelling : Spelling, taken = spelling.text ∧ value = spelling.decimal ∧ spelling.Proper ∧
        Stops Char.isDigit rest ∧ (spelling = .whole taken → fraction.Refuses rest) := by
  simp (disch := grind) only [decimal, takes_orElse, takes_bind progresses_digits1.proceeds, takes_bind_pure,
    takes_digits1,
    takes_optional, takes_fraction]
  constructor
  · intro found
    obtain ⟨run, _, second, rfl, ⟨rfl, digits, stops⟩, _, found, rfl⟩ | ⟨-, places, ⟨rfl, digits, stops⟩, rfl⟩ := found
    · obtain ⟨places, rfl, rfl, fraction, stops'⟩ | ⟨rfl, rfl, refuses⟩ := found
      · refine ⟨.mixed run places, by simp [text], rfl, ⟨digits, fraction⟩, stops', ?_⟩
        intro impossible
        cases impossible
      · exact ⟨.whole run, by simp [text], rfl, digits, stops, fun _ => refuses⟩
    · refine ⟨.fraction places, by simp [text], rfl, digits, stops, ?_⟩
      intro impossible
      cases impossible
  · intro found
    obtain ⟨spelling, rfl, rfl, proper, stops, last⟩ := found
    cases spelling with
    | whole digits =>
      exact .inl ⟨digits, digits, [], by simp [text], ⟨rfl, proper, stops⟩, none, .inr ⟨rfl, rfl, last rfl⟩, rfl⟩
    | mixed digits places =>
      have point : Stops Char.isDigit ('.' :: places ++ rest) := stops_cons.2 (by decide)
      exact .inl ⟨digits, digits, '.' :: places, by simp [text], ⟨rfl, proper.1, point⟩, some places,
        .inl ⟨places, rfl, rfl, proper.2, stops⟩, rfl⟩
    | fraction places =>
      refine .inr ⟨?_, places, ⟨by simp [text], proper, stops⟩, rfl⟩
      exact refuses_bind.2 (.inl (refuses_takeWhile1.2 (stops_cons.2 (by decide))))

/-- Nothing, a percent sign or letters. -/
def IsUnit (text : Text) : Prop := text = ['%'] ∨ ∀ c ∈ text, c.isAlpha = true

theorem takes_unit {taken value rest : Text} :
    unit.Takes taken value rest ↔
      value = taken ∧ (taken = ['%'] ∨ (∀ c ∈ taken, c.isAlpha = true) ∧ Stops Char.isAlpha rest ∧
        (taken = [] → rest.head? ≠ some '%')) := by
  simp only [unit, takes_bind_pure, takes_optional, takes_orElse, takes_span, takes_char, takes_takeWhile1,
    refuses_orElse,
    refuses_span, refuses_char, refuses_takeWhile1]
  constructor
  · intro found
    obtain ⟨_, ⟨_, rfl, ⟨rfl, _, rfl⟩ | ⟨_, rfl, nonempty, letters, stops⟩⟩ | ⟨rfl, rfl, head, stops⟩, rfl⟩ := found
    · exact ⟨rfl, .inl rfl⟩
    · exact ⟨rfl, .inr ⟨letters, stops, fun empty => absurd empty nonempty⟩⟩
    · exact ⟨rfl, .inr ⟨by simp, stops, fun _ => head⟩⟩
  · intro found
    obtain ⟨rfl, rfl | ⟨letters, stops, head⟩⟩ := found
    · exact ⟨some ['%'], .inl ⟨['%'], rfl, .inl ⟨rfl, (), rfl⟩⟩, rfl⟩
    · rcases value with _ | ⟨c, value⟩
      · exact ⟨none, .inr ⟨rfl, rfl, head rfl, stops⟩, rfl⟩
      · refine ⟨some (c :: value), .inl ⟨_, rfl, .inr ⟨?_, rfl, by simp, letters, stops⟩⟩, rfl⟩
        intro percent
        simp only [List.cons_append, List.head?_cons, Option.some.injEq] at percent
        exact absurd (letters c List.mem_cons_self) (by rw [percent]; decide)

theorem takes_numeral {taken rest : Text} {value : Binary64 × Text} :
    numeral.Takes taken value rest ↔
      ∃ (spelling : Spelling) (written : Text), taken = spelling.text ++ written ∧
        value = (Binary64.ofDecimal spelling.decimal, written) ∧ decimal.Takes spelling.text spelling.decimal
          (written ++ rest) ∧
        unit.Takes written written rest := by
  simp (disch := grind) only [numeral, takes_bind progresses_decimal.proceeds, takes_bind_pure]
  constructor
  · intro found
    obtain ⟨number, _, _, rfl, first, written, second, rfl⟩ := found
    obtain ⟨spelling, rfl, rfl, -⟩ := takes_decimal.1 first
    obtain ⟨rfl, -⟩ := takes_unit.1 second
    exact ⟨spelling, written, rfl, rfl, first, second⟩
  · intro found
    obtain ⟨spelling, written, rfl, rfl, first, second⟩ := found
    exact ⟨spelling.decimal, spelling.text, written, rfl, first, written, second, rfl⟩

def starts (c : Char) : Bool := c.isDigit || c == '.'

theorem refuses_numeral_of_head {text : Text} (other : Stops starts text) : numeral.Refuses text := by
  have digit : digits1.Refuses text :=
    refuses_takeWhile1.2 (other.mono fun c inside => by simp [starts, inside])
  have point : fraction.Refuses text :=
    refuses_fraction_of_head fun found => absurd (other '.' found) (by decide)
  exact refuses_bind.2 (.inl (refuses_orElse.2 ⟨refuses_bind.2 (.inl digit), refuses_bind.2 (.inl point)⟩))

end StyleScript.Numeral

namespace StyleScript.Expr.Grammar
open Reading StyleScript.Parser Text

theorem takes_number {taken rest : Text} {expr : Expr} :
    number.Takes taken expr rest ↔
      ∃ value unit, expr = .literal (.number value unit) ∧ Numeral.numeral.Takes taken (value, unit) rest := by
  refine takes_bind_pure.trans ?_
  constructor
  · intro found
    obtain ⟨⟨value, unit⟩, takes, rfl⟩ := found
    exact ⟨value, unit, rfl, takes⟩
  · intro found
    obtain ⟨value, unit, rfl, takes⟩ := found
    exact ⟨(value, unit), takes, rfl⟩

theorem takes_quotedBy {quote : Char} {taken rest : Text} {expr : Expr} :
    (quotedBy quote).Takes taken expr rest ↔
      ∃ body, taken = quote :: (body ++ [quote]) ∧ quote ∉ body ∧ expr = .literal (.string body true) := by
  simp (disch := grind) only [quotedBy, takes_char_bind, takes_bind (proceeds_takeWhile _), takes_bind_pure, takes_char,
    takes_takeWhile]
  constructor
  · intro found
    obtain ⟨_, rfl, body, _, _, rfl, ⟨rfl, inside, -⟩, _, rfl, rfl⟩ := found
    exact ⟨body, rfl, fun member => by simpa using inside quote member, rfl⟩
  · intro found
    obtain ⟨body, rfl, outside, rfl⟩ := found
    refine ⟨body ++ [quote], rfl, body, body, [quote], rfl, ⟨rfl, ?_, ?_⟩, (), rfl, rfl⟩
    · intro c member
      simp only [bne_iff_ne, ne_eq]
      rintro rfl
      exact outside member
    · exact stops_cons.2 (by simp)

theorem refuses_quotedBy_of_head {quote : Char} {text : Text} (other : text.head? ≠ some quote) :
    (quotedBy quote).Refuses text :=
  refuses_bind.2 (.inl (refuses_char.2 other))

theorem takes_quoted {taken rest : Text} {expr : Expr} :
    quoted.Takes taken expr rest ↔
      ∃ quote body, (quote = '"' ∨ quote = '\'') ∧ taken = quote :: (body ++ [quote]) ∧ quote ∉ body ∧
        expr = .literal (.string body true) := by
  rw [quoted, takes_orElse]
  simp only [takes_quotedBy]
  constructor
  · intro found
    obtain ⟨body, rfl, outside, rfl⟩ | ⟨-, body, rfl, outside, rfl⟩ := found
    · exact ⟨'"', body, .inl rfl, rfl, outside, rfl⟩
    · exact ⟨'\'', body, .inr rfl, rfl, outside, rfl⟩
  · intro found
    obtain ⟨quote, body, rfl | rfl, rfl, outside, rfl⟩ := found
    · exact .inl ⟨body, rfl, outside, rfl⟩
    · exact .inr ⟨refuses_quotedBy_of_head (by simp), body, rfl, outside, rfl⟩

def startsQuoted (c : Char) : Bool := c == '"' || c == '\''

theorem refuses_quoted_of_head {text : Text} (other : Stops startsQuoted text) : quoted.Refuses text :=
  refuses_orElse.2 ⟨refuses_quotedBy_of_head fun found => absurd (other _ found) (by decide),
    refuses_quotedBy_of_head fun found => absurd (other _ found) (by decide)⟩

theorem takes_reference {taken rest : Text} {expr : Expr} :
    reference.Takes taken expr rest ↔
      ∃ sigil name, (sigil = '$' ∨ sigil = '!') ∧ taken = sigil :: name ∧ Name.isIdentifier name = true ∧
        expr = .reference name ∧ Stops Name.continues rest := by
  have sigil : (char '$' <|> char '!').Proceeds := (progresses_orElse (progresses_char _) (progresses_char _)).proceeds
  simp (disch := grind) only [reference, takes_bind sigil, takes_bind_pure, takes_orElse, takes_char, takes_identifier,
    refuses_char]
  constructor
  · intro found
    obtain ⟨_, _, _, rfl, sigil, name, ⟨rfl, identifier, stops⟩, rfl⟩ := found
    obtain rfl | ⟨-, rfl⟩ := sigil
    · exact ⟨'$', name, .inl rfl, rfl, identifier, rfl, stops⟩
    · exact ⟨'!', name, .inr rfl, rfl, identifier, rfl, stops⟩
  · intro found
    obtain ⟨sigil, name, either, rfl, identifier, rfl, stops⟩ := found
    refine ⟨(), [sigil], name, rfl, ?_, name, ⟨rfl, identifier, stops⟩, rfl⟩
    obtain rfl | rfl := either
    · exact .inl rfl
    · exact .inr ⟨by simp, rfl⟩

def startsReference (c : Char) : Bool := c == '$' || c == '!'

theorem refuses_reference_of_head {text : Text} (other : Stops startsReference text) : reference.Refuses text :=
  refuses_bind.2 (.inl (refuses_orElse.2 ⟨refuses_char.2 fun found => absurd (other _ found) (by decide),
    refuses_char.2 fun found => absurd (other _ found) (by decide)⟩))

end StyleScript.Expr.Grammar
