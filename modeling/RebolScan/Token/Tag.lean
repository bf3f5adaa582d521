import RebolScan.Text.Bytes

/-!
# Tags

A tag runs from `<` to the first `>` that no double quotes hold. Its text is not decoded, so all
that has to be found is where it ends.
-/

set_option autoImplicit false

namespace RebolScan.Tag

open Ascii

/-- The length of the tag that goes on with `rest`, `pos` bytes after its start; `quoted` says that
a quote is open. None if the input ends first. -/
def lengthFrom (quoted : Bool) (pos : Nat) : Bytes → Option Nat
  | [] => none
  | b :: rest =>
    if b == nul then none
    else if b == quote then lengthFrom (!quoted) (pos + 1) rest
    else if b == greater && !quoted then some (pos + 1)
    else lengthFrom quoted (pos + 1) rest

/-- The length of the tag at the front of `text`, from its `<` to its `>`. The `<` may be missing.
-/
def length? (text : Bytes) : Option Nat :=
  if byteAt text 0 == lesser then lengthFrom false 1 (text.drop 1) else lengthFrom false 0 text

end RebolScan.Tag
