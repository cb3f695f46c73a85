import P16.Text.GraphemeExtend
import P16.Text.Hex
import P16.Text.Printable

/-!
# Quoted text

Texts and characters between quotes, on one line and readable: the usual escapes for tab, return,
line break, null, backslash and the quote, and the code point for whatever would not be seen or
would be drawn on the character before it.
-/

namespace P16.Text

def codePointEscape (c : Char) : String :=
  "\\u\x7b" ++ String.ofList (hexDigits c.toNat) ++ "\x7d"

def escape (quote c : Char) : String :=
  if c = '\x00' then "\\0"
  else if c = '\t' then "\\t"
  else if c = '\r' then "\\r"
  else if c = '\n' then "\\n"
  else if c = '\\' then "\\\\"
  else if c = quote then "\\" ++ c.toString
  else if isGraphemeExtend c || !isPrintable c then codePointEscape c
  else c.toString

def quoted (s : String) : String :=
  "\"" ++ String.join (s.toList.map (escape '"')) ++ "\""

def quotedChar (c : Char) : String :=
  "'" ++ escape '\'' c ++ "'"

end P16.Text
