import StyleScript.Text

/-! A directory of files, and what opening a path in it gives. Nothing is known about the
directories around it except that they are directories. -/

namespace StyleScript

inductive FileFault where
  | missing | isDirectory | notDirectory | notText
  | system (code : Nat) (words : Text)
deriving DecidableEq

namespace FileFault

def message : FileFault → Text
  | .missing => "No such file or directory (os error 2)".toList
  | .isDirectory => "Is a directory (os error 21)".toList
  | .notDirectory => "Not a directory (os error 20)".toList
  | .notText => "stream did not contain valid UTF-8".toList
  | .system code words => words ++ " (os error ".toList ++ Text.ofNat code ++ [')']

end FileFault

/-- The files by their names. -/
abbrev Directory := List (Text × ByteArray)

namespace Directory

/-- The names along a path; a slash at the end leaves an empty one. -/
def names (path : Text) : List Text :=
  let (first, others) := path.foldr
    (fun c (first, others) => if c = '/' then ([], first :: others) else (c :: first, others)) ([], [])
  first :: others

/-- Walks along names, in the directory itself or in one around it. -/
def walk (directory : Directory) (here : Bool) : List Text → Except FileFault ByteArray
  | [] => .error .isDirectory
  | name :: names =>
    if name = [] ∨ name = ['.'] then walk directory here names
    else if name = ['.', '.'] then walk directory false names
    else
      match if here then directory.lookup name else none with
      | none => .error .missing
      | some content => if names = [] then .ok content else .error .notDirectory

def openFile (directory : Directory) (path : Text) : Except FileFault ByteArray :=
  if path = [] then .error .missing else walk directory (path.head? != some '/') (names path)

end Directory

/-- The text that bytes stand for, where they are valid. -/
def textOf (content : ByteArray) : Except FileFault Text :=
  match String.fromUTF8? content with
  | some string => .ok string.toList
  | none => .error .notText

end StyleScript
