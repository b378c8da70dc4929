import ArgGrammar.Text.EscapeTable

/-!
# Texts for debugging

- `escaped`: a text between double quotes in which every character shows. Quotes and backslashes
  stand behind a backslash, as do the letters for tab, line feed, carriage return and zero; any
  other hidden character is written as its code point in braces.
-/

namespace ArgGrammar.Text

/-- The digits of `n` in base sixteen, without leading zeros. -/
def hexDigits (n : Nat) : List Char := Nat.toDigits 16 n

/-- One character of a debugging text. -/
def escapedChar (c : Char) : List Char :=
  if c = '"' then ['\\', '"']
  else if c = '\\' then ['\\', '\\']
  else if c = '\t' then ['\\', 't']
  else if c = '\n' then ['\\', 'n']
  else if c = '\r' then ['\\', 'r']
  else if c.toNat = 0 then ['\\', '0']
  else if inRanges hiddenRanges c then
    ['\\', 'u', Char.ofNat 0x7B] ++ hexDigits c.toNat ++ [Char.ofNat 0x7D]
  else [c]

/-- The text `s` between double quotes with every character showing. -/
def escaped (s : String) : String :=
  String.ofList (['"'] ++ s.toList.flatMap escapedChar ++ ['"'])

end ArgGrammar.Text
