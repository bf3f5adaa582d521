import RebolScan.Text.Alphabet
import RebolScan.Text.Utf8

/-!
# Caret escapes

Inside strings, characters and file names a caret introduces an escape:

| Form           | Character                                  |
|----------------|--------------------------------------------|
| `^/`           | line feed                                  |
| `^^`           | `^`                                        |
| `^-`           | tab                                        |
| `^!`           | `U+001E`                                   |
| `^@` to `^_`   | the control character, letters of any case |
| `^~`           | `U+007F`                                   |
| `^(hex)`       | the code point, one to four digits         |
| `^(name)`      | one of the names in `escapeNames`          |

Any other character after the caret stands for itself.
-/

set_option autoImplicit false

namespace RebolScan.Caret

open Ascii

/-- The names that `^( )` takes in place of a code point, in any case. -/
def escapeNames : List (String × Char) :=
  [("line", '\n'), ("tab", '\t'), ("page", '\x0C'), ("escape", '\x1B'), ("esc", '\x1B'),
   ("back", '\x08'), ("del", '\x7F'), ("null", '\x00')]

/-- The value of a run of hexadecimal digits. -/
def hexValue (digits : Bytes) : Nat :=
  digits.foldl (fun v b => v * 16 + (hexDigit? b).getD 0) 0

/-- The named escape whose name and closing parenthesis are at the front of `body`. -/
def readName (body : Bytes) : Option (Char × Nat) :=
  escapeNames.findSome? fun (name, c) =>
    let spelled := Utf8.encode name
    if sameIgnoringCase (body.take spelled.length) spelled
        && byteAt body spelled.length == parenClose then
      some (c, spelled.length + 1)
    else none

/-- What stands in `^( )`, from after the opening parenthesis and with the closing one. More than
four digits are no escape of either sort, and a surrogate is no character. -/
def readParenthesized (body : Bytes) : Option (Char × Nat) :=
  let digits := body.takeWhile fun b => (hexDigit? b).isSome
  if 4 < digits.length then none
  else if 0 < digits.length && byteAt body digits.length == parenClose then
    let value := hexValue digits
    if value.isValidChar then some (Char.ofNat value, digits.length + 1) else none
  else readName body

/-- What stands after a caret: the character and the number of bytes it takes, the caret not
counted. A caret at the end of the text spells `U+0000` by itself. -/
def readEscape (body : Bytes) : Option (Char × Nat) :=
  let b := byteAt body 0
  let upper := toUpper b
  if b == nul then some ('\x00', 0)
  else if b == slash then some ('\n', 1)
  else if b == caret then some ('^', 1)
  else if b == minus then some ('\t', 1)
  else if b == exclamation then some ('\x1E', 1)
  else if b == parenOpen then (readParenthesized (body.drop 1)).map fun (c, n) => (c, n + 1)
  else if atSign ≤ upper && upper ≤ underscore then some (Char.ofNat (upper.toNat - 0x40), 1)
  else if b == tilde then some ('\x7F', 1)
  else if 0x80 ≤ b then Utf8.decodeChar body
  else some (Char.ofNat b.toNat, 1)

/-- The character at the front of `text`, escaped or not, and the number of bytes it takes. Empty
text reads as `U+0000`. -/
def read (text : Bytes) : Option (Char × Nat) :=
  let b := byteAt text 0
  if 0x80 ≤ b then Utf8.decodeChar text
  else if b == caret then (readEscape (text.drop 1)).map fun (c, n) => (c, n + 1)
  else some (Char.ofNat b.toNat, 1)

/-- A character takes at least one byte. -/
theorem read_width {text : Bytes} {c : Char} {n : Nat} (h : read text = some (c, n)) : 1 ≤ n := by
  unfold read at h
  dsimp only at h
  split at h
  · exact (Utf8.decodeChar_width h).1
  · split at h
    · obtain ⟨⟨d, m⟩, -, he⟩ := Option.map_eq_some_iff.1 h
      simp only [Prod.mk.injEq] at he
      omega
    · simp only [Option.some.injEq, Prod.mk.injEq] at h
      omega

end RebolScan.Caret
