import MlogAsm.Text.Printable

/-!
# Quoted text

Text shown inside a message: in single quotes, or in double quotes when it holds a single quote and
no double quote. The backslash, the chosen quote and every unprintable character are escaped, so the
quoted form is printable and stays on one line.
-/

namespace MlogAsm.Text

/-- A number in lower-case hexadecimal, padded with zeros to at least `width` digits. -/
def hexadecimal (width n : Nat) : String :=
  let digits := Nat.toDigits 16 n
  String.ofList (List.replicate (width - digits.length) '0' ++ digits)

/-- A character by its code point, in the shortest of the three escapes that can hold it. -/
def codePointEscape (c : Char) : String :=
  if c.toNat < 0x100 then "\\x" ++ hexadecimal 2 c.toNat
  else if c.toNat < 0x10000 then "\\u" ++ hexadecimal 4 c.toNat
  else "\\U" ++ hexadecimal 8 c.toNat

/-- A character as it stands between two marks `quote`. -/
def escapeChar (quote c : Char) : String :=
  if c = quote || c = '\\' then String.ofList ['\\', c]
  else if c = '\t' then "\\t"
  else if c = '\n' then "\\n"
  else if c = '\r' then "\\r"
  else if isPrintable c then c.toString
  else codePointEscape c

/-- The mark that encloses a text: double only where this saves escaping a single quote. -/
def quoteFor (s : String) : Char :=
  if s.toList.contains '\'' && !s.toList.contains '"' then '"' else '\''

/-- A text in quotes, with escapes. -/
def quoted (s : String) : String :=
  let quote := quoteFor s
  quote.toString ++ String.join (s.toList.map (escapeChar quote)) ++ quote.toString

example : quoted "it" = "'it'" := by decide +kernel
example : quoted "it's" = "\"it's\"" := by decide +kernel
example : quoted "'\"" = "'\\'\"'" := by decide +kernel
example : quoted "\\\n\x01é\u200b😀" = "'\\\\\\n\\x01é\\u200b😀'" := by decide +kernel

end MlogAsm.Text
