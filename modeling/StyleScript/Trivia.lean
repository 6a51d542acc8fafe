import StyleScript.Parser.Word

/-! Trivia is what may stand between statements: blanks, comments that run to the end of their
line, and comments that are closed. A comment that is never closed is not trivia. -/

namespace StyleScript.Trivia
open StyleScript.Parser

def lineComment : Parser Unit := do
  exactly "//".toList
  let _ ← takeWhile (· != '\n')
  return

/-- The text after the first place where a comment is closed. -/
def afterClosing : Text → Option Text
  | [] => none
  | c :: rest => if c = '*' ∧ rest.head? = some '/' then some rest.tail else afterClosing rest

def closedComment : Parser Unit := do
  exactly "/*".toList
  fun text =>
    match afterClosing text with
    | some rest => .ok ((), rest)
    | none => .error text

def piece : Parser Unit := blanks1 <|> lineComment <|> closedComment

def trivia : Parser Unit := do
  let _ ← many piece
  return

def skip (text : Text) : Text :=
  match trivia text with
  | .ok (_, rest) => rest
  | .error _ => text

end StyleScript.Trivia
