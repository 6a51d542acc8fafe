import StyleScript.CommandLine

/-! The program: it reads the one file that its command line names. -/

open StyleScript CommandLine

def readContent (path : Text) : IO (Except FileFault ByteArray) := do
  try
    return .ok (← IO.FS.readBinFile (String.ofList path))
  catch
    | .noFileOrDirectory .. => return .error .missing
    | .inappropriateType _ 21 _ => return .error .isDirectory
    | .inappropriateType .. => return .error .notDirectory
    | .permissionDenied .. => return .error (.system 13 "Permission denied".toList)
    | _ => return .error (.system 5 "Input/output error".toList)

def main (arguments : List String) : IO UInt32 := do
  let arguments := arguments.map String.toList
  let content ← match request arguments with
    | .usage => pure (.error .missing)
    | .compile _ path => readContent path
  let report := answer (fun _ => content) arguments
  IO.eprint (String.ofList report.text)
  return report.code
