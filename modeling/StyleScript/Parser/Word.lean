import StyleScript.Name
import StyleScript.Parser.Basic

/-! The smallest parsers: characters, runs of characters, blanks, identifiers and words. Each
gives up at the character that it cannot take. -/

namespace StyleScript.Parser

def char (expected : Char) : Parser Unit
  | c :: rest => if c = expected then .ok ((), rest) else .error (c :: rest)
  | [] => .error []

def takeWhile (test : Char → Bool) : Parser Text := fun text =>
  .ok (text.takeWhile test, text.dropWhile test)

def takeWhile1 (test : Char → Bool) : Parser Text := fun text =>
  if text.takeWhile test = [] then .error text else takeWhile test text

def exactly (expected : Text) : Parser Unit := fun text =>
  match expected.isPrefixOf? text with
  | some rest => .ok ((), rest)
  | none => .error text

def blanks : Parser Unit := fun text => .ok ((), Text.dropBlanks text)

def blanks1 : Parser Unit := do
  let _ ← takeWhile1 Text.isBlank
  return

def identifier : Parser Text
  | c :: rest => if Name.startsIdentifier c then takeWhile Name.continues (c :: rest) else .error (c :: rest)
  | [] => .error []

/-- Succeeds without taking anything when no character of a name comes next. -/
def nameEnd : Parser Unit
  | c :: rest => if Name.continues c then .error (c :: rest) else .ok ((), c :: rest)
  | [] => .ok ((), [])

/-- A whole word, so that `and` is not read at the start of `android`. -/
def keyword (word : String) : Parser Unit := do
  exactly word.toList
  nameEnd

end StyleScript.Parser
