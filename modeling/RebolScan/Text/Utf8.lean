import RebolScan.Text.Bytes

/-!
# UTF-8

Source text is read as bytes and decoded only where it has to be: a name, a string, a file name. The
decoder accepts exactly the well-formed sequences: overlong forms, surrogates and values above
`U+10FFFF` have none. Two readers stand on it:

* `decode?` refuses text that is not UTF-8 throughout;
* `lossy` reads any bytes, and gives one replacement character for each longest ill-formed start of
  a sequence. Messages quote source text this way.
-/

set_option autoImplicit false

namespace RebolScan.Utf8

/-- How many bytes a sequence has that starts with `lead`; none if no sequence starts so. -/
def sequenceLength (lead : UInt8) : Option Nat :=
  if lead < 0x80 then some 1
  else if 0xC2 ≤ lead && lead ≤ 0xDF then some 2
  else if 0xE0 ≤ lead && lead ≤ 0xEF then some 3
  else if 0xF0 ≤ lead && lead ≤ 0xF4 then some 4
  else none

/-- A byte that may continue a sequence. -/
def isContinuation (b : UInt8) : Bool := 0x80 ≤ b && b ≤ 0xBF

/-- Whether `next` may follow `lead` in a sequence of two bytes or more. The four narrowed rows keep
out overlong forms (`E0`, `F0`), surrogates (`ED`) and values past the last character (`F4`). -/
def secondFits (lead next : UInt8) : Bool :=
  if lead == 0xE0 then 0xA0 ≤ next && next ≤ 0xBF
  else if lead == 0xED then 0x80 ≤ next && next ≤ 0x9F
  else if lead == 0xF0 then 0x90 ≤ next && next ≤ 0xBF
  else if lead == 0xF4 then 0x80 ≤ next && next ≤ 0x8F
  else 0xC2 ≤ lead && lead ≤ 0xF4 && isContinuation next

/-- The six bits that a continuation byte carries. -/
def low6 (b : UInt8) : Nat := b.toNat % 64

/-- The character at the front of `s`, with the number of bytes that it takes. -/
def decodeChar (s : Bytes) : Option (Char × Nat) :=
  match s with
  | [] => none
  | b :: rest =>
    -- Each row gathers the low bits of the first byte and six of every byte behind it.
    match sequenceLength b, rest with
    | some 1, _ => some (Char.ofNat b.toNat, 1)
    | some 2, c :: _ =>
      if secondFits b c then some (Char.ofNat (b.toNat % 32 * 64 + low6 c), 2) else none
    | some 3, c :: d :: _ =>
      if secondFits b c && isContinuation d then
        some (Char.ofNat ((b.toNat % 16 * 64 + low6 c) * 64 + low6 d), 3)
      else none
    | some 4, c :: d :: e :: _ =>
      if secondFits b c && isContinuation d && isContinuation e then
        some (Char.ofNat (((b.toNat % 8 * 64 + low6 c) * 64 + low6 d) * 64 + low6 e), 4)
      else none
    | _, _ => none

/-- A decoded character takes at least one byte and no more than there are. -/
theorem decodeChar_width {s : Bytes} {c : Char} {n : Nat} (h : decodeChar s = some (c, n)) :
    1 ≤ n ∧ n ≤ s.length := by
  unfold decodeChar at h
  repeat' split at h
  all_goals simp at h
  all_goals (obtain ⟨-, rfl⟩ := h; simp)

/-- The length of the longest start of a sequence in front of text that has no character there. -/
def illFormedLength (s : Bytes) : Nat :=
  if !secondFits (byteAt s 0) (byteAt s 1) then 1
  else if !isContinuation (byteAt s 2) then 2
  else 3

theorem illFormedLength_pos (s : Bytes) : 1 ≤ illFormedLength s := by
  unfold illFormedLength
  split
  · exact Nat.le_refl 1
  · split <;> decide

/-- The characters of `s` put onto those already read, newest first. -/
def decodeOnto (s : Bytes) (read : List Char) : Option (List Char) :=
  match _h : decodeChar s with
  | some (c, n) => decodeOnto (s.drop n) (c :: read)
  | none => if s.isEmpty then some read.reverse else none
termination_by s.length
decreasing_by
  have := decodeChar_width _h
  simp only [List.length_drop]; omega

/-- The text that `s` spells, when all of `s` is well formed. -/
def decode? (s : Bytes) : Option String := (decodeOnto s []).map String.ofList

/-- The characters of `s`, with the replacement character for each ill-formed start, put onto those
already read, newest first. -/
def lossyOnto (s : Bytes) (read : List Char) : List Char :=
  match _h : decodeChar s with
  | some (c, n) => lossyOnto (s.drop n) (c :: read)
  | none =>
    if s.isEmpty then read.reverse
    else lossyOnto (s.drop (illFormedLength s)) ('\uFFFD' :: read)
termination_by s.length
decreasing_by
  · have := decodeChar_width _h
    simp only [List.length_drop]; omega
  · rename_i hs
    have := illFormedLength_pos s
    have : s.length ≠ 0 := by simpa [List.isEmpty_iff] using hs
    simp only [List.length_drop]; omega

/-- The text of any bytes, ill-formed ones replaced. -/
def lossy (s : Bytes) : String := String.ofList (lossyOnto s [])

/-- The bytes that spell a text. -/
def encode (s : String) : Bytes := s.toList.flatMap String.utf8EncodeChar

end RebolScan.Utf8
