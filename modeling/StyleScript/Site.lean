import StyleScript.Text

/-! A site is a file and a line in it. An excerpt is the text of one statement's head together
with the site where that text begins. -/

namespace StyleScript

/-- Lines count from one in a source, but a site may carry any number. -/
structure Site where
  filename : Text
  line : Nat
deriving DecidableEq

namespace Site

def text (site : Site) : Text := site.filename ++ ':' :: Text.ofNat site.line

/-- Where a source goes on after `consumed`: one line further for every newline in it. -/
def after (filename consumed : Text) : Site where
  filename := filename
  line := 1 + Text.newlines consumed

end Site

structure Excerpt where
  source : Text
  site : Site
deriving DecidableEq

end StyleScript
