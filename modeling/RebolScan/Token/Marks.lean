import RebolScan.Text.Alphabet

/-!
# The run of a token and its marks

A token's first cut is its **run**: the bytes up to the first delimiter. What the token is depends
on its first byte and on the **marks** of the run: which special characters stand after the first
byte, and whether any word byte stands in it. So a leading `:` or `+` leaves no mark, and `10:30`
has a colon mark and nothing else. A cursor finds the run and its marks in one pass (`pass`).
-/

set_option autoImplicit false

namespace RebolScan

/-- The bytes at the front of `text` that no delimiter ends. -/
def runOf (text : Bytes) : Bytes := text.takeWhile fun b => !isDelimiter b

/-- The marks of a run: bit `n` of `specials` stands for the special of rank `n`. -/
structure Marks where
  specials : BitVec 14
  /-- a word byte stands in the run -/
  word : Bool
deriving DecidableEq, Repr

namespace Marks

/-- No marks. -/
def none : Marks := ⟨0, false⟩

def has (m : Marks) (s : Special) : Bool := m.specials.getLsbD s.rank

def insert (m : Marks) (s : Special) : Marks :=
  { m with specials := m.specials ||| BitVec.twoPow 14 s.rank }

def erase (m : Marks) (s : Special) : Marks :=
  { m with specials := m.specials &&& ~~~ BitVec.twoPow 14 s.rank }

def isEmpty (m : Marks) : Bool := m == none

/-- Word bytes and nothing special. -/
def isOnlyWord (m : Marks) : Bool := m == ⟨0, true⟩

/-- The specials that no plain word may hold after its first byte. -/
def illegalInWord : List Special :=
  [.atSign, .percent, .backslash, .comma, .pound, .dollar, .colon]

/-- Some special of `l` is marked. -/
def hasAny (m : Marks) (l : List Special) : Bool := l.any m.has

/-- All marks as one number, the word mark above the specials. -/
def bits (m : Marks) : Nat := m.specials.toNat + if m.word then 0x4000 else 0

/-- Adds what a byte after the first one marks. -/
def note (m : Marks) (b : UInt8) : Marks :=
  match ByteClass.of b with
  | .special s => m.insert s
  | .word _ => { m with word := true }
  | _ => m

/-- The marks of a run. Its first byte counts as a word byte only. -/
def ofRun : Bytes → Marks
  | [] => none
  | b :: rest => rest.foldl note ⟨0, isWord b⟩

/-- One pass to the end of a run finds its marks and its length. Behind the pass are `n` bytes, and
`m` is what they mark. A word byte takes the word bytes and the digits behind it along, which can mark
nothing more, and a digit takes the digits along. -/
def pass (text : Bytes) (n : Nat) (m : Marks) : Marks × Nat :=
  match text with
  | [] => (m, n)
  | b :: rest =>
    match ByteClass.of b with
    | .delimiter _ => (m, n)
    | .special s => pass rest (n + 1) (if n = 0 then m else m.insert s)
    | .word _ =>
      let more := (rest.takeWhile isWordOrNumber).length
      pass (rest.drop more) (n + 1 + more) { m with word := true }
    | .number _ =>
      let more := (rest.takeWhile isNumber).length
      pass (rest.drop more) (n + 1 + more) m
termination_by text.length
decreasing_by
  all_goals simp only [List.length_drop, List.length_cons]
  all_goals omega

theorem has_insert (m : Marks) (s t : Special) :
    (m.insert s).has t = (m.has t || decide (s = t)) := by
  cases s <;> cases t <;> simp [has, insert, Special.rank]

theorem has_erase (m : Marks) (s t : Special) :
    (m.erase s).has t = (m.has t && decide (s ≠ t)) := by
  cases s <;> cases t <;> simp [has, erase, Special.rank]

end Marks

end RebolScan
