import StyleScript.Binary64.Shortest
import StyleScript.Parser.Word

/-! Numerals: digits with a fraction or without, or a fraction alone, and directly after them a
percent sign or letters as the unit. A point without digits after it belongs to no numeral. -/

namespace StyleScript.Numeral
open StyleScript.Parser

def digits1 : Parser Text := takeWhile1 Char.isDigit

def fraction : Parser Text := do
  char '.'
  digits1

def decimal : Parser Decimal :=
  (do
    let whole ← digits1
    let places ← optional fraction
    return Decimal.ofDigits whole (places.getD [])) <|>
  (do
    let places ← fraction
    return Decimal.ofDigits [] places)

def unit : Parser Text := do
  let written ← optional (span (char '%') <|> takeWhile1 Char.isAlpha)
  return written.getD []

def numeral : Parser (Binary64 × Text) := do
  let decimal ← decimal
  let unit ← unit
  return (Binary64.ofDecimal decimal, unit)

end StyleScript.Numeral
