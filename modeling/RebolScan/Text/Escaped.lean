import RebolScan.Text.Visible

/-!
# Quoted text for display

Text that is shown between quotes has its quotes and backslashes escaped, its usual controls by
letter, and every character that does not show by code point.
-/

set_option autoImplicit false

namespace RebolScan.Text

/-- The digits of `n` to base 16 in small letters. -/
def hexText (n : Nat) : String := String.ofList (Nat.toDigits 16 n)

/-- One character of quoted text. -/
def escapedChar (c : Char) : String :=
  if c == '\x00' then "\\0"
  else if c == '\t' then "\\t"
  else if c == '\r' then "\\r"
  else if c == '\n' then "\\n"
  else if c == '\\' then "\\\\"
  else if c == '"' then "\\\""
  else if isVisible c then c.toString
  else "\\u\x7b" ++ hexText c.toNat ++ "\x7d"

/-- Text between quotes. -/
def quotedText (s : String) : String :=
  "\"" ++ s.toList.foldl (fun out c => out ++ escapedChar c) "" ++ "\""

end RebolScan.Text
