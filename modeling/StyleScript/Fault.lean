import StyleScript.Site
import StyleScript.Text.White
import StyleScript.Value.Arithmetic

/-! Everything that can be wrong with a stylesheet, as causes. The words for each are in one
place; every fault names the site that it belongs to. -/

namespace StyleScript

inductive SyntaxFault where
  | unexpected (line : Text)
  | endOfInput
  | expected (mark : Char)
  | strayBrace
  | expectedStatement
deriving DecidableEq

namespace SyntaxFault

/-- A place in a text is quoted as the rest of its line; a line with nothing on it counts as the
end of the input. -/
def ofPlace (place : Text) : SyntaxFault :=
  let line := Text.trim (Text.firstLine place)
  if line = [] then .endOfInput else .unexpected line

def message : SyntaxFault → Text
  | .unexpected line => "unexpected `".toList ++ line ++ ['`']
  | .endOfInput => "unexpected end of input".toList
  | .expected mark => "expected `".toList ++ [mark, '`']
  | .strayBrace => "unexpected `\x7d`".toList
  | .expectedStatement => "expected a statement".toList

end SyntaxFault

inductive Fault where
  | invalidDeclaration (site : Site) (text : Text)
  | duplicateParameter (function parameter : Text) (declared : Site)
  | missingArgument (function parameter : Text) (declared called : Site)
  | badSyntax (site : Site) (cause : SyntaxFault)
  | undefinedVariable (site : Site) (name : Text)
  | undefinedFunction (site : Site) (name : Text)
  | operation (site : Site) (cause : OperationFault)
  | returnOutsideFunction (site : Site)
deriving DecidableEq

namespace Fault

/-- The site that a message begins with: for a missing argument that is the call. -/
def site : Fault → Site
  | .invalidDeclaration site _ | .badSyntax site _ | .undefinedVariable site _
  | .undefinedFunction site _ | .operation site _ | .returnOutsideFunction site => site
  | .duplicateParameter _ _ declared => declared
  | .missingArgument _ _ _ called => called

/-- What a message says after the site. -/
def wording : Fault → Text
  | .invalidDeclaration _ text => "invalid function declaration `".toList ++ text ++ ['`']
  | .duplicateParameter function parameter _ =>
    "function ".toList ++ function ++ ": parameter $".toList ++ parameter ++ " is declared twice".toList
  | .missingArgument function parameter declared _ =>
    "function ".toList ++ function ++ ": required argument $".toList ++ parameter ++
      " not given (function declared at ".toList ++ declared.text ++ [')']
  | .badSyntax _ cause => cause.message
  | .undefinedVariable _ name => "undefined variable $".toList ++ name
  | .undefinedFunction _ name => "undefined function ".toList ++ name ++ "()".toList
  | .operation _ cause => cause.message
  | .returnOutsideFunction _ => "@return may only be used within a function".toList

def message (fault : Fault) : Text := fault.site.text ++ ": ".toList ++ fault.wording

end Fault
end StyleScript
