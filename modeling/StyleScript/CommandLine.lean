import StyleScript.Compilation

/-! The command line: one file is compiled, and what it printed, or the fault, goes to the
standard error stream together with an exit code. -/

namespace StyleScript.CommandLine

inductive Request where
  | usage
  | compile (dialect : Dialect) (path : Text)

/-- One argument must be left when those that begin with two dashes are taken away. -/
def request (arguments : List Text) : Request :=
  match arguments.filter fun argument => !("--".toList.isPrefixOf argument) with
  | [path] => .compile (if arguments.contains "--legacy".toList then .legacy else .standard) path
  | _ => .usage

structure Report where
  code : UInt32
  text : Text

def usage : Report := ⟨2, "Usage: sassfn [--legacy] <input>\n".toList⟩

def failure (message : Text) : Report := ⟨1, "error: ".toList ++ message ++ ['\n']⟩

def report : Compilation → Report
  | .printed outputs => ⟨0, outputs.flatMap fun output => output.text ++ ['\n']⟩
  | .faulty fault => failure fault.message
  | .unreadable cause => failure cause.message
  | .exhausted => failure "calls are nested too deeply".toList

/-- Answers a command line, where opening a path is given. -/
def answer (openFile : Text → Except FileFault ByteArray) (arguments : List Text) : Report :=
  match request arguments with
  | .usage => usage
  | .compile dialect path => report (Compilation.ofFile dialect path (openFile path))

end StyleScript.CommandLine
