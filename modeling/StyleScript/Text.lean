/-! Sources, names and messages are lists of characters: what was read is a literal part of
what was given, and reading is recursion on it. -/

namespace StyleScript

abbrev Text := List Char

namespace Text

/-- The four characters that may stand between the words of an expression. -/
def isBlank (c : Char) : Bool := c == ' ' || c == '\t' || c == '\r' || c == '\n'

def dropBlanks (text : Text) : Text := text.dropWhile isBlank

def newlines (text : Text) : Nat := text.count '\n'

def firstLine (text : Text) : Text := text.takeWhile (· != '\n')

/-- Where `rest` is an end of `whole`, the part of `whole` that stands before it. -/
def before (whole rest : Text) : Text := whole.take (whole.length - rest.length)

def ofNat (n : Nat) : Text := Nat.toDigits 10 n

theorem before_append (consumed rest : Text) : before (consumed ++ rest) rest = consumed := by
  simp [before]

theorem newlines_append (first second : Text) :
    newlines (first ++ second) = newlines first + newlines second :=
  List.count_append

theorem dropBlanks_cons_of_blank {c : Char} (blank : isBlank c = true) (rest : Text) :
    dropBlanks (c :: rest) = dropBlanks rest := by
  simp [dropBlanks, blank]

theorem dropBlanks_cons_of_not_blank {c : Char} (visible : isBlank c = false) (rest : Text) :
    dropBlanks (c :: rest) = c :: rest := by
  simp [dropBlanks, visible]

theorem dropBlanks_dropBlanks (text : Text) : dropBlanks (dropBlanks text) = dropBlanks text := by
  induction text with
  | nil => rfl
  | cons c rest ih =>
    cases visible : isBlank c with
    | false => rw [dropBlanks_cons_of_not_blank visible, dropBlanks_cons_of_not_blank visible]
    | true => rw [dropBlanks_cons_of_blank visible, ih]

end Text
end StyleScript
