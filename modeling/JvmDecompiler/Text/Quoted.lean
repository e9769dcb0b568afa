import JvmDecompiler.Text.Unprintable

/-!
# Quoted texts

A text as a message shows it: between double quotes, with a backslash in front of a double quote and of
a backslash, and with escapes for line ends and other characters that cannot be seen.
-/

namespace JvmDecompiler.Quoted

/-- A number in hexadecimal digits. -/
def hex (n : Nat) : String := String.ofList (Nat.toDigits 16 n)

/-- A character as it stands in a quoted text. -/
def encodeChar (c : Char) : String :=
  if c = '"' then "\\\""
  else if c = '\\' then "\\\\"
  else if c = '\t' then "\\t"
  else if c = '\r' then "\\r"
  else if c = '\n' then "\\n"
  else if c.toNat = 0 then "\\0"
  else if isUnprintable c then "\\u\x7b" ++ hex c.toNat ++ "\x7d"
  else c.toString

/-- A text in quotes. -/
def encode (text : String) : String := "\"" ++ String.join (text.toList.map encodeChar) ++ "\""

end JvmDecompiler.Quoted
