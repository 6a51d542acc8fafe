import StyleScript.Text

/-! White characters are those with the Unicode property White_Space. Trimming takes them from
the ends of a text; the four blanks are among them. -/

namespace StyleScript.Text

def isWhite (c : Char) : Bool :=
  ('\x09' ≤ c && c ≤ '\x0d') || c == ' ' || c == '\u0085' || c == '\u00a0' || c == '\u1680' ||
    ('\u2000' ≤ c && c ≤ '\u200a') || c == '\u2028' || c == '\u2029' || c == '\u202f' ||
    c == '\u205f' || c == '\u3000'

def trimStart (text : Text) : Text := text.dropWhile isWhite

def trimEnd (text : Text) : Text := (text.reverse.dropWhile isWhite).reverse

def trim (text : Text) : Text := trimEnd (trimStart text)

theorem isWhite_of_isBlank {c : Char} (blank : isBlank c = true) : isWhite c = true := by
  simp only [isBlank, Bool.or_eq_true, beq_iff_eq] at blank
  rcases blank with ((rfl | rfl) | rfl) | rfl <;> decide

end StyleScript.Text
