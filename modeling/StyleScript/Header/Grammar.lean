import StyleScript.Dialect
import StyleScript.Fault
import StyleScript.Header.Basic
import StyleScript.Header.Nesting
import StyleScript.Parser.Word

/-! The grammar of function heads. The list of parameters runs to the last closing parenthesis
of the head. Names are compared by the key under which they will be bound, so that two spellings
of one variable are a duplicate. -/

namespace StyleScript

namespace Parameter

/-- A sigil and a name, and after the first separator a default, which may not be blank. -/
def ofText? (dialect : Dialect) (text : Text) : Option Parameter :=
  let text := Text.trim text
  match Text.trimEnd (text.takeWhile (· != dialect.separator)) with
  | [] => none
  | sigil :: name =>
    if sigil = dialect.sigil ∧ Name.isIdentifier name then
      match text.dropWhile (· != dialect.separator) with
      | [] => some ⟨name, none⟩
      | _ :: default => if Text.trim default = [] then none else some ⟨name, some (Text.trim default)⟩
    else none

end Parameter

namespace Header
open StyleScript.Parser

/-- What stands between the opening parenthesis and the last closing one. -/
def listText : Parser Text := do
  char '('
  fun text =>
    let trimmed := Text.trimEnd text
    if trimmed.getLast? = some ')' then .ok (trimmed.dropLast, text.drop trimmed.length)
    else .error text

/-- The name as it is written, and the list of parameters if there is one. -/
def signature : Parser (Text × Option Text) := do
  blanks
  exactly "@function".toList
  blanks1
  let name ← takeWhile1 Name.continues
  blanks
  let list ← optional listText
  blanks
  atEnd
  return (name, list)

/-- The texts of the parameters; a blank list has none. -/
def parameterTexts : Option Text → List Text
  | none => []
  | some list => if Text.trim list = [] then [] else commaParts list

/-- The wrong thing that comes first is reported: a part that is no parameter, or a name whose
key was seen before. -/
def readParameters (dialect : Dialect) (excerpt : Excerpt) (function : Text) (seen : List Text) :
    List Text → Except Fault (List Parameter)
  | [] => .ok []
  | text :: texts =>
    match Parameter.ofText? dialect text with
    | none => .error (.invalidDeclaration excerpt.site (Text.trim excerpt.source))
    | some parameter =>
      let key := Name.variableKey parameter.name
      if key ∈ seen then .error (.duplicateParameter function parameter.name excerpt.site)
      else (readParameters dialect excerpt function (key :: seen) texts).map (parameter :: ·)

/-- Reads the head that an excerpt holds. -/
def ofExcerpt (dialect : Dialect) (excerpt : Excerpt) : Except Fault Header :=
  match signature excerpt.source with
  | .error _ => .error (.invalidDeclaration excerpt.site (Text.trim excerpt.source))
  | .ok ((name, list), _) =>
    let function := Name.functionKey name
    (readParameters dialect excerpt function [] (parameterTexts list)).map fun parameters =>
      ⟨function, parameters, excerpt⟩

end Header
end StyleScript
