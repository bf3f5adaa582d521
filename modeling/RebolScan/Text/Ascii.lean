/-!
# Named bytes

Source text is read byte by byte, and most decisions turn on one ASCII byte. This module gives those
bytes their names, so that a rule reads `byteAt text 1 == slash` and not `byteAt text 1 == 0x2F`.
-/

set_option autoImplicit false

namespace RebolScan.Ascii

/-- The byte that also stands for the end of input. -/
abbrev nul : UInt8 := 0x00
abbrev tab : UInt8 := 0x09
abbrev lineFeed : UInt8 := 0x0A
abbrev formFeed : UInt8 := 0x0C
abbrev carriageReturn : UInt8 := 0x0D
abbrev space : UInt8 := 0x20
abbrev exclamation : UInt8 := 0x21
abbrev quote : UInt8 := 0x22
abbrev pound : UInt8 := 0x23
abbrev dollar : UInt8 := 0x24
abbrev percent : UInt8 := 0x25
abbrev ampersand : UInt8 := 0x26
abbrev tick : UInt8 := 0x27
abbrev parenOpen : UInt8 := 0x28
abbrev parenClose : UInt8 := 0x29
abbrev asterisk : UInt8 := 0x2A
abbrev plus : UInt8 := 0x2B
abbrev comma : UInt8 := 0x2C
abbrev minus : UInt8 := 0x2D
abbrev period : UInt8 := 0x2E
abbrev slash : UInt8 := 0x2F
abbrev colon : UInt8 := 0x3A
abbrev semicolon : UInt8 := 0x3B
abbrev lesser : UInt8 := 0x3C
abbrev equal : UInt8 := 0x3D
abbrev greater : UInt8 := 0x3E
abbrev question : UInt8 := 0x3F
abbrev atSign : UInt8 := 0x40
abbrev bracketOpen : UInt8 := 0x5B
abbrev backslash : UInt8 := 0x5C
abbrev bracketClose : UInt8 := 0x5D
abbrev caret : UInt8 := 0x5E
abbrev underscore : UInt8 := 0x5F
abbrev grave : UInt8 := 0x60
abbrev letterE : UInt8 := 0x65
abbrev letterX : UInt8 := 0x78
abbrev capitalE : UInt8 := 0x45
abbrev capitalX : UInt8 := 0x58
abbrev braceOpen : UInt8 := 0x7B
abbrev bar : UInt8 := 0x7C
abbrev braceClose : UInt8 := 0x7D
abbrev tilde : UInt8 := 0x7E

/-- The decimal digits. -/
def isDigit (b : UInt8) : Bool := 0x30 ≤ b && b ≤ 0x39

def isUpper (b : UInt8) : Bool := 0x41 ≤ b && b ≤ 0x5A

def isLower (b : UInt8) : Bool := 0x61 ≤ b && b ≤ 0x7A

def isLetter (b : UInt8) : Bool := isUpper b || isLower b

/-- The five blanks that the ends of a file are trimmed of; a vertical tab is not one. -/
def isBlank (b : UInt8) : Bool :=
  b == space || b == tab || b == lineFeed || b == formFeed || b == carriageReturn

/-- A small letter becomes its capital; every other byte stays. -/
def toUpper (b : UInt8) : UInt8 := if isLower b then b - 0x20 else b

/-- A capital becomes its small letter; every other byte stays. -/
def toLower (b : UInt8) : UInt8 := if isUpper b then b + 0x20 else b

/-- The value of a decimal digit. -/
def digitValue (b : UInt8) : Nat := b.toNat - 0x30

end RebolScan.Ascii
