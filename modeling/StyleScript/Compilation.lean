import StyleScript.Directory
import StyleScript.Stylesheet

/-! Compiling one file: what it printed, the fault that stopped it, or why it could not be read.
The path as it was given is the file's name in every site. -/

namespace StyleScript

inductive Compilation where
  | printed (outputs : List Output)
  | faulty (fault : Fault)
  | unreadable (cause : FileFault)
  | exhausted

/-- Calls may be nested this deep. -/
def callDepth : Nat := 10000

namespace Compilation

def ofSheet (sheet : Sheet) : Compilation :=
  match sheet.compile callDepth with
  | .done outputs => .printed outputs
  | .failed fault => .faulty fault
  | .exhausted => .exhausted

def ofFile (dialect : Dialect) (path : Text) (content : Except FileFault ByteArray) : Compilation :=
  match content.bind textOf with
  | .ok source => ofSheet ⟨path, dialect, source⟩
  | .error cause => .unreadable cause

end Compilation
end StyleScript
