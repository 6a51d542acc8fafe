import StyleScript.Proofs.Leaves

/-! Expressions as they are written: a tree with the spelling of every leaf and the blanks around
every operator. Its text has parentheses only where an operand binds looser than its place
allows. -/

namespace StyleScript
open Expr.Grammar

/-- The level that an operator joins the operands of. -/
def Operator.layer : Operator → Layer
  | .times | .over | .modulo => .product
  | .plus | .minus => .sum
  | _ => .comparison

namespace Expr

inductive Written where
  | number (spelling : Numeral.Spelling) (unit : Text)
  | quoted (quote : Char) (text : Text)
  | word (name : Text)
  | boolean (value : Bool)
  | null
  | reference (sigil : Char) (name : Text)
  | call (name : Text) (arguments : List Argument) (closing : Text)
  | negate (operand : Written)
  | not (gap : Text) (operand : Written)
  | both (left : Written) (before after : Text) (right : Written)
  | either (left : Written) (before after : Text) (right : Written)
  | binary (operator : Operator) (left : Written) (before after : Text) (right : Written)

/-- The loosest place of an operand on the left. Comparisons do not chain; the others do. -/
def Grammar.Layer.left : Layer → Nat
  | .comparison => 2
  | layer => layer.rank + 1

namespace Written

def expr : Written → Expr
  | .number spelling unit => .literal (.number (Binary64.ofDecimal spelling.decimal) unit)
  | .quoted _ text => .literal (.string text true)
  | .word name => .literal (.string name false)
  | .boolean value => .literal (.boolean value)
  | .null => .literal .null
  | .reference _ name => .reference name
  | .call name arguments _ => .call name (arguments.map Argument.text)
  | .negate operand => .negate operand.expr
  | .not _ operand => .not operand.expr
  | .both left _ _ right => .both left.expr right.expr
  | .either left _ _ right => .either left.expr right.expr
  | .binary operator left _ _ right => .binary operator left.expr right.expr

/-- How loosely the outermost operator binds; unary operators and leaves bind tightest. -/
def rank : Written → Nat
  | .both .. => Layer.conjunction.rank + 1
  | .either .. => Layer.disjunction.rank + 1
  | .binary operator .. => operator.layer.rank + 1
  | _ => 0

/-- An operand of some rank in a place for operands up to a limit. -/
def enclose (rank limit : Nat) (text : Text) : Text := if rank ≤ limit then text else '(' :: (text ++ [')'])

def text : Written → Text
  | .number spelling unit => spelling.text ++ unit
  | .quoted quote text => quote :: (text ++ [quote])
  | .word name => name
  | .boolean true => "true".toList
  | .boolean false => "false".toList
  | .null => "null".toList
  | .reference sigil name => sigil :: name
  | .call name arguments closing => name ++ '(' :: (argumentList arguments ++ (closing ++ [')']))
  | .negate operand => '-' :: enclose operand.rank 0 operand.text
  | .not gap operand => "not".toList ++ (gap ++ enclose operand.rank 0 operand.text)
  | .both left before after right =>
    enclose left.rank Layer.conjunction.left left.text ++
      (before ++ ("and".toList ++ (after ++ enclose right.rank Layer.conjunction.rank right.text)))
  | .either left before after right =>
    enclose left.rank Layer.disjunction.left left.text ++
      (before ++ ("or".toList ++ (after ++ enclose right.rank Layer.disjunction.rank right.text)))
  | .binary operator left before after right =>
    enclose left.rank operator.layer.left left.text ++
      (before ++ (operator.symbol ++ (after ++ enclose right.rank operator.layer.rank right.text)))

def IsGap (text : Text) : Prop := text ≠ [] ∧ ∀ c ∈ text, Text.isBlank c = true

/-- The words that are not read as names. -/
def reserved : List Text := ["true".toList, "false".toList, "null".toList, "not".toList]

/-- The leaves can be written as they are, and there are blanks wherever they are needed. -/
def Proper : Written → Prop
  | .number spelling unit => spelling.Proper ∧ Numeral.IsUnit unit
  | .quoted quote text => (quote = '"' ∨ quote = '\'') ∧ quote ∉ text
  | .word name => Name.isIdentifier name = true ∧ name ∉ reserved
  | .boolean _ => True
  | .null => True
  | .reference sigil name => (sigil = '$' ∨ sigil = '!') ∧ Name.isIdentifier name = true
  | .call name arguments closing =>
    (Name.isIdentifier name = true ∧ name ∉ reserved) ∧ (∀ argument ∈ arguments, argument.Proper) ∧
      ∀ c ∈ closing, Text.isBlank c = true
  | .negate operand => operand.Proper
  | .not gap operand => IsGap gap ∧ operand.Proper
  | .both left before after right => left.Proper ∧ IsGap before ∧ IsGap after ∧ right.Proper
  | .either left before after right => left.Proper ∧ IsGap before ∧ IsGap after ∧ right.Proper
  | .binary _ left before after right => left.Proper ∧ IsGap before ∧ IsGap after ∧ right.Proper

end Written

open Written

/-- A tree whose leaves can be written. -/
def Writable : Expr → Prop
  | .literal (.number value unit) =>
    (∃ spelling : Numeral.Spelling, spelling.Proper ∧ value = Binary64.ofDecimal spelling.decimal) ∧ Numeral.IsUnit unit
  | .literal (.string text true) => '"' ∉ text ∨ '\'' ∉ text
  | .literal (.string name false) => Name.isIdentifier name = true ∧ name ∉ reserved
  | .literal (.boolean _) => True
  | .literal .null => True
  | .reference name => Name.isIdentifier name = true
  | .call name arguments =>
    (Name.isIdentifier name = true ∧ name ∉ reserved) ∧ ∀ text ∈ arguments, Canonical text
  | .negate operand => operand.Writable
  | .not operand => operand.Writable
  | .both left right => left.Writable ∧ right.Writable
  | .either left right => left.Writable ∧ right.Writable
  | .binary _ left right => left.Writable ∧ right.Writable

theorem isGap_space : IsGap [' '] := ⟨List.cons_ne_nil _ _, by simp [Text.isBlank]⟩

theorem Writable.exists_written {expr : Expr} (writable : expr.Writable) :
    ∃ written : Written, written.Proper ∧ written.expr = expr := by
  induction expr with
  | literal value =>
    cases value with
    | number value unit =>
      obtain ⟨⟨spelling, proper, same⟩, letters⟩ := writable
      exact ⟨.number spelling unit, ⟨proper, letters⟩, by rw [same]; rfl⟩
    | string text quoted =>
      cases quoted with
      | true =>
        obtain free | free := writable
        · exact ⟨.quoted '"' text, ⟨.inl rfl, free⟩, rfl⟩
        · exact ⟨.quoted '\'' text, ⟨.inr rfl, free⟩, rfl⟩
      | false => exact ⟨.word text, writable, rfl⟩
    | boolean value => exact ⟨.boolean value, trivial, rfl⟩
    | null => exact ⟨.null, trivial, rfl⟩
  | reference name => exact ⟨.reference '$' name, ⟨.inl rfl, writable⟩, rfl⟩
  | call name arguments =>
    obtain ⟨free, canonical⟩ := writable
    refine ⟨.call name (arguments.map fun text => ⟨[], text, []⟩) [], ⟨free, ?_, by simp⟩, ?_⟩
    · intro argument member
      obtain ⟨text, inside, rfl⟩ := List.mem_map.1 member
      exact ⟨canonical text inside, by simp, by simp⟩
    · have same : Argument.text ∘ (fun text => ⟨[], text, []⟩) = id := rfl
      rw [Written.expr, List.map_map, same, List.map_id]
  | negate operand ih =>
    obtain ⟨written, proper, rfl⟩ := ih writable
    exact ⟨.negate written, proper, rfl⟩
  | not operand ih =>
    obtain ⟨written, proper, rfl⟩ := ih writable
    exact ⟨.not [' '] written, ⟨isGap_space, proper⟩, rfl⟩
  | both left right ihLeft ihRight =>
    obtain ⟨first, properFirst, rfl⟩ := ihLeft writable.1
    obtain ⟨second, properSecond, rfl⟩ := ihRight writable.2
    exact ⟨.both first [' '] [' '] second, ⟨properFirst, isGap_space, isGap_space, properSecond⟩, rfl⟩
  | either left right ihLeft ihRight =>
    obtain ⟨first, properFirst, rfl⟩ := ihLeft writable.1
    obtain ⟨second, properSecond, rfl⟩ := ihRight writable.2
    exact ⟨.either first [' '] [' '] second, ⟨properFirst, isGap_space, isGap_space, properSecond⟩, rfl⟩
  | binary operator left right ihLeft ihRight =>
    obtain ⟨first, properFirst, rfl⟩ := ihLeft writable.1
    obtain ⟨second, properSecond, rfl⟩ := ihRight writable.2
    exact ⟨.binary operator first [' '] [' '] second, ⟨properFirst, isGap_space, isGap_space, properSecond⟩, rfl⟩

end Expr
end StyleScript
