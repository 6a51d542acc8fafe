import StyleScript.Proofs.Excerpts
import StyleScript.Proofs.Leaves
import StyleScript.Proofs.Skipping

/-! Drafts of statements: trees in which every gap is filled in, so that a draft has one text. What
may stand in a gap is up to the writer; the tree that is read back does not show it, but for the
excerpts and the lines. -/

namespace StyleScript
open Text (isBlank isWhite newlines)

inductive Filler where
  | blank (c : Char)
  | line (text : Text)
  | closed (text : Text)
  | semicolon

namespace Filler

/-- A comment that runs to the end of its line brings the newline along. -/
def text : Filler → Text
  | .blank c => [c]
  | .line text => '/' :: '/' :: (text ++ ['\n'])
  | .closed text => '/' :: '*' :: (text ++ ['*', '/'])
  | .semicolon => [';']

def IsTrivia : Filler → Prop
  | .blank c => isBlank c = true
  | .line text => '\n' ∉ text
  | .closed text => Trivia.Unclosed text
  | .semicolon => False

end Filler

def fill (gap : List Filler) : Text := gap.flatMap Filler.text

/-- What may stand inside a statement. -/
def IsTrivial (gap : List Filler) : Prop := ∀ filler ∈ gap, filler.IsTrivia

/-- What may stand between statements. -/
def IsLead (lead : List Filler) : Prop := ∀ filler ∈ lead, filler = .semicolon ∨ filler.IsTrivia

mutual

inductive Draft where
  | function (name : Text) (parameters : List Parameter) (head whites : Text) (body : Drafts)
  | returns (gap expression : Text)
  | assign (name before after expression : Text) (default : Option Text)
  | conditional (gap condition : Text) (trailing : List Filler) (body : Drafts) (otherwise : DraftOtherwise)
  | print (severity : Severity) (gap expression : Text)

/-- What follows the body of a condition. -/
inductive DraftOtherwise where
  | nothing
  | block (before after : List Filler) (body : Drafts)
  | condition (before between : List Filler) (gap condition : Text) (trailing : List Filler) (body : Drafts)
      (otherwise : DraftOtherwise)

/-- The items of a block or of a source, each with what stands before it. -/
inductive Drafts where
  | done (lead : List Filler)
  | item (lead : List Filler) (first : Draft) (rest : Drafts)

end

def Severity.word : Severity → Text
  | .debug => "@debug".toList
  | .warn => "@warn".toList

def defaultMark : Option Text → Text
  | none => []
  | some gap => gap ++ "!default".toList

/-- What the excerpt of an assignment shows. -/
def assigned (dialect : Dialect) (name before after expression : Text) (default : Option Text) : Text :=
  dialect.sigil :: (name ++ (before ++ dialect.separator :: (after ++ (expression ++ defaultMark default))))

/-- A block with what stands before its brace. -/
def braces (gap : List Filler) (inside : Text) : Text := fill gap ++ '{' :: (inside ++ ['}'])

section
variable (dialect : Dialect)

mutual

def Draft.text : Draft → Text
  | .function _ _ head whites body => head ++ (whites ++ braces [] body.text)
  | .returns gap expression => "@return".toList ++ (gap ++ expression)
  | .assign name before after expression default => assigned dialect name before after expression default
  | .conditional gap condition trailing body otherwise =>
    "@if".toList ++ (gap ++ condition) ++ (braces trailing body.text ++ otherwise.text)
  | .print severity gap expression => severity.word ++ (gap ++ expression)

def DraftOtherwise.text : DraftOtherwise → Text
  | .nothing => []
  | .block before after body => fill before ++ ("@else".toList ++ braces after body.text)
  | .condition before between gap condition trailing body otherwise =>
    fill before ++ ("@else".toList ++ (fill between ++ ("if".toList ++ (gap ++ condition ++
      (braces trailing body.text ++ otherwise.text)))))

def Drafts.text : Drafts → Text
  | .done lead => fill lead
  | .item lead first rest => fill lead ++ (first.text ++ rest.text)

end

section
variable {dialect : Dialect}

theorem Draft.text_function (name head whites : Text) (parameters : List Parameter) (body : Drafts) :
    (Draft.function name parameters head whites body).text dialect =
    head ++ (whites ++ braces [] (body.text dialect)) := rfl

theorem Draft.text_conditional (gap condition : Text) (trailing : List Filler) (body : Drafts)
    (otherwise : DraftOtherwise) :
    (Draft.conditional gap condition trailing body otherwise).text dialect =
      "@if".toList ++ (gap ++ condition) ++ (braces trailing (body.text dialect) ++ otherwise.text dialect) := rfl

theorem DraftOtherwise.text_block (before after : List Filler) (body : Drafts) :
    (DraftOtherwise.block before after body).text dialect =
      fill before ++ ("@else".toList ++ braces after (body.text dialect)) := rfl

theorem DraftOtherwise.text_condition (before between trailing : List Filler) (gap condition : Text) (body : Drafts)
    (otherwise : DraftOtherwise) :
    (DraftOtherwise.condition before between gap condition trailing body otherwise).text dialect =
      fill before ++ ("@else".toList ++ (fill between ++ ("if".toList ++ (gap ++ condition ++
        (braces trailing (body.text dialect) ++ otherwise.text dialect))))) := rfl

theorem Drafts.text_item (lead : List Filler) (first : Draft) (rest : Drafts) :
    (Drafts.item lead first rest).text dialect = fill lead ++ (first.text dialect ++ rest.text dialect) := rfl

end

variable (filename : Text)

mutual

/-- The tree of a draft that comes after `before` in a file. -/
def Draft.tree (before : Text) : Draft → Statement
  | .function name parameters head whites body =>
    .function ⟨name, parameters, ⟨head, .after filename before⟩⟩ (body.trees (before ++ head ++ whites ++ ['{']))
  | .returns gap expression => .returns ⟨"@return".toList ++ (gap ++ expression), .after filename before⟩ expression
  | .assign name blanks after expression default =>
    .assign ⟨assigned dialect name blanks after expression default, .after filename before⟩ name expression
      default.isSome
  | .conditional gap condition trailing body otherwise =>
    let head := "@if".toList ++ (gap ++ condition)
    .conditional ⟨head, .after filename before⟩ condition (body.trees (before ++ head ++ (fill trailing ++ ['{'])))
      (otherwise.tree (before ++ head ++ braces trailing (body.text dialect)))
  | .print severity gap expression =>
    .print ⟨severity.word ++ (gap ++ expression), .after filename before⟩ severity expression

def DraftOtherwise.tree (before : Text) : DraftOtherwise → Otherwise
  | .nothing => .nothing
  | .block gap after body => .block (body.trees (before ++ fill gap ++ "@else".toList ++ (fill after ++ ['{'])))
  | .condition gap between blanks condition trailing body otherwise =>
    let beforeIf := before ++ fill gap ++ "@else".toList ++ fill between
    let beforeBody := beforeIf ++ "if".toList ++ (blanks ++ condition)
    .condition (.after filename beforeIf) condition (body.trees (beforeBody ++ (fill trailing ++ ['{'])))
      (otherwise.tree (beforeBody ++ braces trailing (body.text dialect)))

def Drafts.trees (before : Text) : Drafts → List Statement
  | .done _ => []
  | .item lead first rest =>
    first.tree (before ++ fill lead) :: rest.trees (before ++ fill lead ++ first.text dialect)

end
end

/-- A text whose quotes are closed, with no brace and no semicolon outside of them. -/
def Enclosed : Option Char → Text → Prop
  | quote, [] => quote = none
  | quote, c :: rest => (quote = none → c ∉ ['{', ';', '}']) ∧ Enclosed (quoteAfter quote c) rest

/-- The head of a function, as it is declared in a dialect. -/
structure IsHead (dialect : Dialect) (name : Text) (parameters : List Parameter) (head : Text) : Prop where
  trimmed : Text.trim head = head
  enclosed : Enclosed none head
  read : ∃ site, Header.ofExcerpt dialect ⟨head, site⟩ = .ok ⟨name, parameters, ⟨head, site⟩⟩

/-- An expression after a word, with blanks before it if it begins like a name. -/
structure IsGiven (gap expression : Text) : Prop where
  blank : ∀ c ∈ gap, isBlank c = true
  apart : Text.Stops Name.continues (gap ++ expression)
  canonical : Expr.Grammar.Canonical expression

/-- After the bare word `not` the mark of a default would be read as a variable. -/
def IsMarkable (expression : Text) : Prop :=
  ∀ expr, Expr.parser expression = .ok (expr, []) → ¬ Expr.EndsInNot expression expr

structure IsAssigned (name before after expression : Text) (default : Option Text) : Prop where
  identifier : Name.isIdentifier name = true
  before : ∀ c ∈ before, isBlank c = true
  after : ∀ c ∈ after, isBlank c = true
  canonical : Expr.Grammar.Canonical expression
  marked : ∀ gap ∈ default, (∀ c ∈ gap, isBlank c = true) ∧ IsMarkable expression

/-- A statement that is ended by a semicolon. -/
def Draft.IsSimple : Draft → Prop
  | .function .. | .conditional .. => False
  | _ => True

/-- A semicolon stands before the next statement, if there is one. -/
def Drafts.IsSeparated : Drafts → Prop
  | .done _ => True
  | .item lead .. => .semicolon ∈ lead

section
variable (dialect : Dialect)

mutual

def Draft.Proper : Draft → Prop
  | .function name parameters head whites body =>
    IsHead dialect name parameters head ∧ (∀ c ∈ whites, isWhite c = true) ∧ body.Proper
  | .returns gap expression | .print _ gap expression => IsGiven gap expression
  | .assign name before after expression default => IsAssigned name before after expression default
  | .conditional gap condition trailing body otherwise =>
    IsGiven gap condition ∧ IsTrivial trailing ∧ body.Proper ∧ otherwise.Proper

def DraftOtherwise.Proper : DraftOtherwise → Prop
  | .nothing => True
  | .block before after body => IsTrivial before ∧ IsTrivial after ∧ body.Proper
  | .condition before between gap condition trailing body otherwise =>
    IsTrivial before ∧ between ≠ [] ∧ IsTrivial between ∧ IsGiven gap condition ∧ IsTrivial trailing ∧ body.Proper ∧
      otherwise.Proper

def Drafts.Proper : Drafts → Prop
  | .done lead => IsLead lead
  | .item lead first rest => IsLead lead ∧ first.Proper ∧ (first.IsSimple → rest.IsSeparated) ∧ rest.Proper

end
end

section
open Trivia StyleScript.Expr

theorem Filler.skip_text {filler : Filler} (trivia : filler.IsTrivia) (text : Text) :
    skip (filler.text ++ text) = skip text := by
  cases filler with
  | blank c => exact skip_blank trivia text
  | line comment =>
    have whole := skip_line trivia text
    rw [Filler.text, List.cons_append, List.cons_append, List.append_assoc]
    exact whole
  | closed comment =>
    have whole := skip_closed trivia text
    rw [Filler.text, List.cons_append, List.cons_append, List.append_assoc]
    exact whole
  | semicolon => cases trivia

theorem fill_cons (filler : Filler) (gap : List Filler) (text : Text) :
    fill (filler :: gap) ++ text = filler.text ++ (fill gap ++ text) := by
  rw [fill, List.flatMap_cons, List.append_assoc]
  rfl

theorem skip_fill {gap : List Filler} (isTrivial : IsTrivial gap) (text : Text) :
    skip (fill gap ++ text) = skip text := by
  induction gap with
  | nil => rfl
  | cons filler gap ih =>
    obtain ⟨first, rest⟩ := List.forall_mem_cons.1 isTrivial
    rw [fill_cons, filler.skip_text first]
    exact ih rest

theorem IsTrivial.lead {gap : List Filler} (isTrivial : IsTrivial gap) : IsLead gap :=
  fun filler member => .inr (isTrivial filler member)

theorem Filler.closes {filler : Filler} (fits : filler = .semicolon ∨ filler.IsTrivia) {text : Text}
    (closes : Closes text) :
    Closes (filler.text ++ text) := by
  obtain rfl | trivia := fits
  · exact closes_of_head (by simp) rfl
  · cases filler with
    | blank c =>
      have same : Text.dropBlanks ([c] ++ text) = Text.dropBlanks text := Text.dropBlanks_cons_of_blank trivia text
      rw [Closes, Filler.text, same]
      exact closes
    | line comment => exact .inr (.inr (.inl ⟨_, rfl⟩))
    | closed comment => exact .inr (.inr (.inr ⟨_, rfl⟩))
    | semicolon => cases trivia

theorem closes_fill {lead : List Filler} (isLead : IsLead lead) {text : Text} (closes : Closes text) :
    Closes (fill lead ++ text) := by
  induction lead with
  | nil => exact closes
  | cons filler lead ih =>
    obtain ⟨first, rest⟩ := List.forall_mem_cons.1 isLead
    rw [fill_cons]
    exact filler.closes first (ih rest)

end
end StyleScript
