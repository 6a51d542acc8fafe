import StyleScript.Site

/-! What `@debug` and `@warn` statements print. A warning names its site on a second line. -/

namespace StyleScript

inductive Severity where
  | debug | warn
deriving DecidableEq

structure Output where
  severity : Severity
  site : Site
  message : Text
deriving DecidableEq

namespace Output

def text (output : Output) : Text :=
  match output.severity with
  | .debug => output.site.text ++ " DEBUG: ".toList ++ output.message
  | .warn =>
    "WARNING: ".toList ++ output.message ++ "\n    on line ".toList ++ Text.ofNat output.site.line ++
      " of ".toList ++ output.site.filename

end Output
end StyleScript
