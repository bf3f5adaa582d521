import RebolScan.Proofs.Token.QuotedText
import RebolScan.Proofs.Token.Unescaped

/-!
# Quoted text, piece by piece

What stands between quotes or braces is a row of **pieces**: a caret escape, which carries that it is
read as one character and to its end, or a character that stands for itself. The reader of quoted text
goes over its pieces (`readFrom_inside`), and **there is no other text that it reads to a close**
(`inside_of_readFrom`). Which rows of pieces may stand there is `Inside`: none closes the text before
its end, and only between braces does one break a line.

A piece is mostly one step of the reader. The exception is a carriage return with a line feed behind
it: two pieces, and one step. But the reader does the same when it takes the carriage return for
nothing and goes on at the line feed (`readFrom_return`), so the pieces can be gone over one by one.
-/

set_option autoImplicit false

namespace RebolScan

open Ascii

namespace Caret

/-- The byte behind an escape is none of it: what is cut off there is read as it was, for a caret alone
would have had NUL behind it. -/
theorem read_take {text : Bytes} {c : Char} {n : Nat} (h : read text = some (c, n))
    (hcaret : byteAt text 0 = caret) (hnext : byteAt text n ≠ nul) :
    2 ≤ n ∧ read (text.take n) = some (c, n) := by
  have hlength := lt_length_of_byteAt hnext
  have htwo : 2 ≤ n := by
    unfold read at h
    dsimp only at h
    rw [hcaret, if_neg (by decide), if_pos (by rfl)] at h
    obtain ⟨⟨d, m⟩, hread, he⟩ := Option.map_eq_some_iff.1 h
    obtain ⟨rfl, rfl⟩ := Prod.mk.inj he
    rcases readEscape_cases hread with ⟨rfl, hnul⟩ | rfl | ⟨k, rfl, -⟩ | hdecode
    · rw [byteAt_drop] at hnul
      exact absurd hnul hnext
    · exact Nat.le_refl 2
    · omega
    · have := (Utf8.decodeChar_width hdecode).1
      omega
  have htake : (text.take n).length = n := List.length_take_of_le (Nat.le_of_lt hlength)
  have hread := read_append (r := text.take n) (x := text.drop n) (c := c) (n := n)
    (by rwa [List.take_append_drop]) (by omega) (by omega) []
  rw [List.append_nil] at hread
  exact ⟨htwo, hread⟩

/-- What is read and is no escape is a character that stands for itself. -/
theorem encodeChar_of_read {text : Bytes} {c : Char} {n : Nat} (h : read text = some (c, n))
    (hne : text ≠ []) (hcaret : byteAt text 0 ≠ caret) : String.utf8EncodeChar c = text.take n := by
  unfold read at h
  dsimp only at h
  split at h
  · exact Utf8.encodeChar_of_decodeChar h
  · rename_i hascii
    rw [if_neg (by simpa using hcaret)] at h
    cases h
    cases text with
    | nil => exact absurd rfl hne
    | cons b rest =>
      rw [byteAt_cons_zero, UInt8.not_le, UInt8.lt_iff_toNat_lt] at hascii
      have hlt : b.toNat < 128 := hascii
      have hvalue : (Char.ofNat b.toNat).toNat = b.toNat := Utf8.toNat_ofNat (.inl (by omega))
      rw [byteAt_cons_zero, Utf8.encodeChar_ascii (by omega), hvalue, UInt8.ofNat_toNat]
      rfl

end Caret

namespace Quoted

/-! ## Pieces -/

/-- All of `bytes` is an escape, a caret and at least one byte more, and spells `c`. -/
structure IsEscape (bytes : Bytes) (c : Char) : Prop where
  caret : byteAt bytes 0 = Ascii.caret
  length : 2 ≤ bytes.length
  read : Caret.read bytes = some (c, bytes.length)

theorem IsEscape.byteAt_append {bytes : Bytes} {c : Char} (h : IsEscape bytes c) (rest : Bytes) :
    byteAt (bytes ++ rest) 0 = Ascii.caret := by
  rw [byteAt_append_left (Nat.zero_lt_of_lt h.length), h.caret]

/-- A piece of quoted text. -/
inductive Piece
  /-- an escape, and the character that it spells -/
  | escape (bytes : Bytes) (c : Char) (h : IsEscape bytes c)
  /-- a character that stands for itself -/
  | plain (c : Char) (h : c ≠ '^' ∧ c ≠ '\x00')

namespace Piece

def bytes : Piece → Bytes
  | escape bytes _ _ => bytes
  | plain c _ => String.utf8EncodeChar c

def char : Piece → Char
  | escape _ c _ => c
  | plain c _ => c

/-- The piece is the character `c`, and no escape of it. -/
def stands (c : Char) : Piece → Bool
  | escape .. => false
  | plain d _ => d == c

/-- The piece is a line feed or a carriage return that is not escaped. -/
def isBreak (p : Piece) : Bool := p.stands '\n' || p.stands '\r'

variable {p : Piece}

/-- A piece of ASCII that stands for itself is one byte. -/
theorem bytes_of_stands {c : Char} (h : p.stands c = true) (hc : c.toNat < 128) :
    p.bytes = [UInt8.ofNat c.toNat] := by
  cases p with
  | escape => cases h
  | plain d hd =>
    obtain rfl : d = c := eq_of_beq h
    exact Utf8.encodeChar_ascii hc

/-- It stands for no other character too. -/
theorem not_stands {c d : Char} (h : p.stands c = true) (hd : c ≠ d) : p.stands d = false := by
  cases p with
  | escape => cases h
  | plain e he =>
    obtain rfl : e = c := eq_of_beq h
    exact beq_false_of_ne hd

theorem bytes_ne_nil (p : Piece) : p.bytes ≠ [] := by
  cases p with
  | escape bytes c h => exact List.ne_nil_of_length_pos (Nat.zero_lt_of_lt h.length)
  | plain c h => exact List.ne_nil_of_length_pos (String.length_utf8EncodeChar c ▸ Char.utf8Size_pos c)

/-- **The first byte tells** which character of ASCII stands there, or that none does. -/
theorem byteAt_beq (p : Piece) (rest : Bytes) {c : Char} (hc : c.toNat < 128) (hcaret : c ≠ '^') :
    (byteAt (p.bytes ++ rest) 0 == UInt8.ofNat c.toNat) = p.stands c := by
  cases p with
  | escape bytes d h =>
    rw [show byteAt ((escape bytes d h).bytes ++ rest) 0 = caret from h.byteAt_append rest]
    apply beq_false_of_ne
    intro he
    have hnat := congrArg UInt8.toNat he
    rw [UInt8.toNat_ofNat_of_lt' (by show _ < 256; omega)] at hnat
    exact hcaret (Char.toNat_inj.1 hnat.symm)
  | plain d h =>
    show (byteAt (String.utf8EncodeChar d ++ rest) 0 == _) = (d == c)
    by_cases hd : d = c
    · subst hd
      rw [Utf8.encodeChar_ascii hc, List.singleton_append, byteAt_cons_zero, beq_self_eq_true,
        beq_self_eq_true]
    · rw [beq_false_of_ne hd, beq_false_of_ne (Utf8.byteAt_encodeChar_ne hc hd rest)]

theorem byteAt_ne_nul (p : Piece) (rest : Bytes) : byteAt (p.bytes ++ rest) 0 ≠ nul := by
  have hnul : p.stands '\x00' = false := by
    cases p with
    | escape => rfl
    | plain c h => exact beq_false_of_ne h.2
  intro h
  have hfirst := p.byteAt_beq rest (c := '\x00') (by decide) (by decide)
  rw [h, hnul] at hfirst
  cases hfirst

theorem isLineBreak_byteAt (p : Piece) (rest : Bytes) :
    isLineBreak (byteAt (p.bytes ++ rest) 0) = p.isBreak := by
  rw [isLineBreak, isBreak, ← p.byteAt_beq rest (c := '\n') (by decide) (by decide),
    ← p.byteAt_beq rest (c := '\r') (by decide) (by decide)]
  rfl

/-- **A piece is read as its character**, whatever follows. -/
theorem read_bytes (p : Piece) (rest : Bytes) :
    Caret.read (p.bytes ++ rest) = some (p.char, p.bytes.length) := by
  cases p with
  | escape bytes c h =>
    have hread : Caret.read (bytes ++ []) = some (c, bytes.length) := by
      rw [List.append_nil]
      exact h.read
    exact Caret.read_append hread h.length (Nat.le_refl _) rest
  | plain c h => exact Caret.read_plain h.1 rest

/-- How many inner braces are open behind the piece. -/
def nest (braced : Bool) (p : Piece) (n : Nat) : Nat :=
  if !braced then n
  else if p.stands '{' then n + 1
  else if p.stands '}' then n - 1
  else n

theorem nestAfter_byteAt (braced : Bool) (p : Piece) (rest : Bytes) (n : Nat) :
    nestAfter braced (byteAt (p.bytes ++ rest) 0) n = p.nest braced n := by
  have hopen : (byteAt (p.bytes ++ rest) 0 == braceOpen) = p.stands '{' :=
    p.byteAt_beq rest (c := '{') (by decide) (by decide)
  have hclose : (byteAt (p.bytes ++ rest) 0 == braceClose) = p.stands '}' :=
    p.byteAt_beq rest (c := '}') (by decide) (by decide)
  rw [nestAfter, nest, hopen, hclose]

end Piece

/-- The bytes of pieces in a row. -/
def spelled (ps : List Piece) : Bytes := ps.flatMap Piece.bytes

theorem spelled_cons (p : Piece) (ps : List Piece) : spelled (p :: ps) = p.bytes ++ spelled ps :=
  List.flatMap_cons

/-! ## What pieces say -/

/-- A line break ends with the piece `p` in front of `ps`. A carriage return with a line feed behind it
does not end one. -/
def endsBreakBefore (p : Piece) (ps : List Piece) : Bool :=
  p.stands '\n' || (p.stands '\r' && !(ps.head?.any (·.stands '\n')))

/-- The characters of pieces. A line break that is not escaped is one line feed, be it spelled as a
line feed, a carriage return, or both. -/
def characters : List Piece → List Char
  | [] => []
  | p :: ps =>
    (if endsBreakBefore p ps then ['\n'] else if p.stands '\r' then [] else [p.char]) ++ characters ps

/-- The line breaks that are not escaped. -/
def breaks : List Piece → Nat
  | [] => 0
  | p :: ps => (if endsBreakBefore p ps then 1 else 0) + breaks ps

/-- How many bytes there are up to the end of the last of them. -/
def lastBreak? : List Piece → Option Nat
  | [] => none
  | p :: ps =>
    ((lastBreak? ps).map (p.bytes.length + ·)).or
      (if endsBreakBefore p ps then some p.bytes.length else none)

/-! ## Pieces that may stand between quotes or braces -/

/-- The character that closes the text. -/
def closer (braced : Bool) : Char := if braced then '}' else '"'

theorem closing_eq (braced : Bool) : closing braced = UInt8.ofNat (closer braced).toNat := by
  cases braced <;> rfl

/-- Between quotes, or braces of which `nest` inner ones are open, the pieces stand up to the close. -/
inductive Inside (braced : Bool) : Nat → List Piece → Prop
  | done : Inside braced 0 []
  | piece {nest : Nat} {p : Piece} {ps : List Piece}
      (hclose : ¬(p.stands (closer braced) = true ∧ nest = 0))
      (hline : p.isBreak = true → braced = true) (h : Inside braced (p.nest braced nest) ps) :
      Inside braced nest (p :: ps)

variable {braced : Bool} {pos nest lines lineStart n : Nat} {found : List Char} {text rest : Bytes}
  {p : Piece} {ps : List Piece} {c : Char}

theorem inside_nil : Inside braced nest [] ↔ nest = 0 := by
  constructor
  · rintro ⟨⟩
    rfl
  · rintro rfl
    exact .done

theorem inside_cons : Inside braced nest (p :: ps) ↔
    ¬(p.stands (closer braced) = true ∧ nest = 0) ∧ (p.isBreak = true → braced = true) ∧
      Inside braced (p.nest braced nest) ps := by
  constructor
  · rintro (_ | ⟨hclose, hline, h⟩)
    exact ⟨hclose, hline, h⟩
  · rintro ⟨hclose, hline, h⟩
    exact .piece hclose hline h

/-- Going over the pieces decides whether they may stand there. -/
instance decidableInside (braced : Bool) :
    (nest : Nat) → (ps : List Piece) → Decidable (Inside braced nest ps)
  | _, [] => decidable_of_iff _ inside_nil.symm
  | nest, p :: ps =>
    have := decidableInside braced (p.nest braced nest) ps
    decidable_of_iff _ inside_cons.symm

theorem byteAt_closing (braced : Bool) (p : Piece) (rest : Bytes) :
    (byteAt (p.bytes ++ rest) 0 == closing braced) = p.stands (closer braced) := by
  rw [closing_eq]
  exact p.byteAt_beq rest (by cases braced <;> decide) (by cases braced <;> decide)

/-- A piece that breaks no line is the next character. -/
theorem next?_piece (h : p.isBreak = false) (rest : Bytes) :
    next? braced (p.bytes ++ rest) = some (p.char, p.bytes.length) := by
  have hnul : (byteAt (p.bytes ++ rest) 0 == nul) = false := beq_false_of_ne (p.byteAt_ne_nul rest)
  unfold next?
  dsimp only
  rw [hnul, if_neg Bool.noConfusion, p.isLineBreak_byteAt, h, if_neg Bool.noConfusion, p.read_bytes]

/-- A line break of one byte is the next character between braces. -/
theorem next?_break {b : UInt8} (h : isLineBreak b = true)
    (hone : (b == carriageReturn && byteAt rest 0 == lineFeed) = false) :
    next? true (b :: rest) = some ('\n', 1) := by
  have hnul : (b == nul) = false := by
    apply beq_false_of_ne
    rintro rfl
    cases h
  unfold next?
  dsimp only
  rw [byteAt_cons_zero, byteAt_cons_succ, hnul, h, hone]
  rfl

/-- At a line break the reader goes on, counting one. -/
theorem readFrom_break {b : UInt8} (h : isLineBreak b = true)
    (hone : (b == carriageReturn && byteAt rest 0 == lineFeed) = false) :
    readFrom true (b :: rest) pos nest lines lineStart found =
      readFrom true rest (pos + 1) nest (lines + 1) (pos + 1) ('\n' :: found) := by
  have hb : b = lineFeed ∨ b = carriageReturn := by
    rw [isLineBreak, Bool.or_eq_true, beq_iff_eq, beq_iff_eq] at h
    exact h
  have hclose : ¬(byteAt (b :: rest) 0 == closing true && nest == 0) = true := by
    rcases hb with rfl | rfl <;> exact Bool.noConfusion
  have hnest : nestAfter true b nest = nest := by
    rcases hb with rfl | rfl <;> rfl
  rw [readFrom_next hclose (next?_break h hone), byteAt_cons_zero, h, hnest]
  rfl

/-- **Where a carriage return has a line feed behind it**, reading goes on as at the line feed. -/
theorem readFrom_return (rest : Bytes) :
    readFrom true (carriageReturn :: lineFeed :: rest) pos nest lines lineStart found =
      readFrom true (lineFeed :: rest) (pos + 1) nest lines lineStart found := by
  have hboth : next? true (carriageReturn :: lineFeed :: rest) = some ('\n', 2) := rfl
  rw [readFrom_next Bool.noConfusion hboth, readFrom_break rfl rfl]
  rfl

/-- What stands behind pieces closes the text, so a line feed there is a piece. -/
theorem byteAt_spelled (braced : Bool) (ps : List Piece) (rest : Bytes) :
    (byteAt (spelled ps ++ closing braced :: rest) 0 == lineFeed) = ps.head?.any (·.stands '\n') := by
  cases ps with
  | nil => cases braced <;> rfl
  | cons p ps =>
    rw [spelled_cons, List.append_assoc]
    exact p.byteAt_beq _ (c := '\n') (by decide) (by decide)

/-- **One piece.** The reader goes on behind it, with its character found and, if a line break ends
with it, one line more. -/
theorem readFrom_piece (hclose : ¬(p.stands (closer braced) = true ∧ nest = 0))
    (hline : p.isBreak = true → braced = true) (ps : List Piece) (rest : Bytes) :
    readFrom braced (p.bytes ++ (spelled ps ++ closing braced :: rest)) pos nest lines lineStart found =
      readFrom braced (spelled ps ++ closing braced :: rest) (pos + p.bytes.length)
        (p.nest braced nest) (lines + if endsBreakBefore p ps then 1 else 0)
        (if endsBreakBefore p ps then pos + p.bytes.length else lineStart)
        ((if endsBreakBefore p ps then ['\n'] else if p.stands '\r' then [] else [p.char]) ++
          found) := by
  cases hbreak : p.isBreak with
  | false =>
    have hstands := Bool.or_eq_false_iff.1 hbreak
    have hends : endsBreakBefore p ps = false := by
      rw [endsBreakBefore, hstands.1, hstands.2]
      rfl
    have hopen : ¬(byteAt (p.bytes ++ (spelled ps ++ closing braced :: rest)) 0 == closing braced &&
        nest == 0) = true := by
      rwa [byteAt_closing, Bool.and_eq_true, beq_iff_eq]
    rw [readFrom_next hopen (next?_piece hbreak _), p.isLineBreak_byteAt, hbreak,
      p.nestAfter_byteAt, hends, hstands.2, List.drop_left]
    rfl
  | true =>
    obtain rfl := hline hbreak
    have hnest (c : Char) (h : p.stands c = true) (hopen : c ≠ '{') (hclose : c ≠ '}') :
        p.nest true nest = nest := by
      rw [Piece.nest, Piece.not_stands h hopen, Piece.not_stands h hclose]
      rfl
    rcases Bool.or_eq_true_iff.1 hbreak with hfeed | hreturn
    · have hends : endsBreakBefore p ps = true := by rw [endsBreakBefore, hfeed, Bool.true_or]
      rw [Piece.bytes_of_stands hfeed (by decide), hends,
        hnest '\n' hfeed (by decide) (by decide)]
      exact readFrom_break rfl rfl
    · have hbytes : p.bytes = [carriageReturn] := Piece.bytes_of_stands hreturn (by decide)
      have hends : endsBreakBefore p ps = !(ps.head?.any (·.stands '\n')) := by
        rw [endsBreakBefore, Piece.not_stands hreturn (by decide), hreturn]
        rfl
      rw [hbytes, hends, hreturn, hnest '\r' hreturn (by decide) (by decide)]
      cases hnext : ps.head?.any (·.stands '\n') with
      | false =>
        have hone : (carriageReturn == carriageReturn &&
            byteAt (spelled ps ++ closing true :: rest) 0 == lineFeed) = false := by
          rw [byteAt_spelled, hnext]
          rfl
        exact readFrom_break rfl hone
      | true =>
        cases ps with
        | nil => cases hnext
        | cons q ps =>
          have hfeed : q.bytes = [lineFeed] := Piece.bytes_of_stands hnext (by decide)
          rw [spelled_cons, hfeed]
          exact readFrom_return _

/-- The last break is that of the pieces behind, or the one that the first ends. -/
theorem getD_lastBreak? (p : Piece) (ps : List Piece) (pos lineStart : Nat) :
    ((lastBreak? (p :: ps)).map (pos + ·)).getD lineStart =
      ((lastBreak? ps).map (pos + p.bytes.length + ·)).getD
        (if endsBreakBefore p ps then pos + p.bytes.length else lineStart) := by
  rw [lastBreak?]
  cases lastBreak? ps with
  | none => cases endsBreakBefore p ps <;> rfl
  | some n => exact (Nat.add_assoc pos p.bytes.length n).symm

/-- **The reader goes over its pieces**, and finds what they say. -/
theorem readFrom_inside (h : Inside braced nest ps) (rest : Bytes) :
    readFrom braced (spelled ps ++ closing braced :: rest) pos nest lines lineStart found =
      (found.reverse ++ characters ps, some ⟨pos + (spelled ps).length + 1, lines + breaks ps,
        ((lastBreak? ps).map (pos + ·)).getD lineStart⟩) := by
  induction h generalizing pos lines lineStart found with
  | done =>
    have hclose : (byteAt (closing braced :: rest) 0 == closing braced && 0 == 0) = true := by
      rw [byteAt_cons_zero, beq_self_eq_true]
      rfl
    rw [spelled, List.flatMap_nil, List.nil_append, readFrom, if_pos hclose]
    simp [characters, breaks, lastBreak?]
  | @piece nest p ps hclose hline h ih =>
    rw [spelled_cons, List.append_assoc, readFrom_piece hclose hline, ih, getD_lastBreak?,
      List.reverse_append, List.append_assoc, characters, breaks, List.length_append]
    congr 2
    · split
      · rfl
      · split <;> rfl
    · congr 1 <;> omega

/-- What is read where `b` opens pieces that may stand there. -/
theorem read_inside {b : UInt8} (h : Inside (b == braceOpen) 0 ps) (rest : Bytes) :
    read (b :: (spelled ps ++ closing (b == braceOpen) :: rest)) =
      ⟨String.ofList (characters ps), some ⟨(spelled ps).length + 2, breaks ps,
        ((lastBreak? ps).map (1 + ·)).getD 0⟩⟩ := by
  have hread : readFrom (b == braceOpen) (spelled ps ++ closing (b == braceOpen) :: rest) 1 0 0 0 [] =
      (characters ps, some ⟨(spelled ps).length + 2, breaks ps,
        ((lastBreak? ps).map (1 + ·)).getD 0⟩) := by
    rw [readFrom_inside h, List.reverse_nil, List.nil_append, Nat.zero_add, Nat.add_right_comm,
      Nat.add_comm (1 + 1)]
  rw [read, byteAt_cons_zero, List.drop_one, List.tail_cons, hread]

/-! ## There is no other text that closes -/

/-- What starts pieces with a close behind them is no NUL. -/
theorem byteAt_spelled_ne_nul (ps : List Piece) (rest : Bytes) :
    byteAt (spelled ps ++ closing braced :: rest) 0 ≠ nul := by
  cases ps with
  | nil => exact closing_ne_nul braced
  | cons p ps =>
    rw [spelled_cons, List.append_assoc]
    exact p.byteAt_ne_nul _

/-- NUL is no character of a quoted text. -/
theorem byteAt_ne_nul_of_next? (h : next? braced text = some (c, n)) : byteAt text 0 ≠ nul := by
  intro hnul
  rw [next?, hnul] at h
  cases h

/-- What is read at the front of a text, and has no NUL behind it, is a piece. -/
theorem piece_of_read (h : Caret.read text = some (c, n)) (hfirst : byteAt text 0 ≠ nul)
    (hnext : byteAt (text.drop n) 0 ≠ nul) :
    ∃ p : Piece, text = p.bytes ++ text.drop n ∧ p.bytes.length = n := by
  rw [byteAt_drop, Nat.add_zero] at hnext
  have hlength : (text.take n).length = n :=
    List.length_take_of_le (Nat.le_of_lt (lt_length_of_byteAt hnext))
  by_cases hcaret : byteAt text 0 = caret
  · obtain ⟨htwo, hread⟩ := Caret.read_take h hcaret hnext
    have hescape : IsEscape (text.take n) c := by
      refine ⟨?_, hlength.symm ▸ htwo, hlength.symm ▸ hread⟩
      rw [byteAt_take (by omega), hcaret]
    exact ⟨.escape _ c hescape, (List.take_append_drop n text).symm, hlength⟩
  · have hbytes := Caret.encodeChar_of_read h (ne_nil_of_byteAt hfirst) hcaret
    have hpos := Caret.read_width h
    have hne {d : Char} (hd : d.toNat < 128) (hne : byteAt text 0 ≠ UInt8.ofNat d.toNat) : c ≠ d := by
      rintro rfl
      rw [Utf8.encodeChar_ascii hd] at hbytes
      apply hne
      rw [← byteAt_take (by omega : 0 < n), ← hbytes, byteAt_cons_zero]
    have hplain : c ≠ '^' ∧ c ≠ '\x00' := ⟨hne (by decide) hcaret, hne (by decide) hfirst⟩
    refine ⟨.plain c hplain, ?_, ?_⟩
    · rw [Piece.bytes, hbytes, List.take_append_drop]
    · rw [Piece.bytes, hbytes, hlength]

/-- A line break is one piece or two. -/
theorem exists_lineBreak (h : isLineBreak (byteAt text 0) = true) :
    ∃ qs : List Piece, text = spelled qs ++ text.drop (lineBreakLength text) ∧
      ∀ nest ps, Inside true nest ps → Inside true nest (qs ++ ps) := by
  have hfeed : '\n' ≠ '^' ∧ '\n' ≠ '\x00' := by decide
  have hreturn : '\r' ≠ '^' ∧ '\r' ≠ '\x00' := by decide
  have hfeeds (nest : Nat) (ps : List Piece) (h : Inside true nest ps) :
      Inside true nest (.plain '\n' hfeed :: ps) := .piece (fun h => nomatch h.1) (fun _ => rfl) h
  have hreturns (nest : Nat) (ps : List Piece) (h : Inside true nest ps) :
      Inside true nest (.plain '\r' hreturn :: ps) := .piece (fun h => nomatch h.1) (fun _ => rfl) h
  cases text with
  | nil => cases h
  | cons b text =>
    rw [isLineBreak, Bool.or_eq_true, beq_iff_eq, beq_iff_eq, byteAt_cons_zero] at h
    rcases h with rfl | rfl
    · exact ⟨[.plain '\n' hfeed], rfl, hfeeds⟩
    · rw [lineBreakLength, byteAt_cons_zero, byteAt_cons_succ]
      cases hboth : byteAt text 0 == lineFeed with
      | false => exact ⟨[.plain '\r' hreturn], rfl, hreturns⟩
      | true =>
        cases text with
        | nil => cases hboth
        | cons c text =>
          obtain rfl : c = lineFeed := eq_of_beq hboth
          exact ⟨[.plain '\r' hreturn, .plain '\n' hfeed], rfl, fun nest ps h =>
            hreturns nest _ (hfeeds nest ps h)⟩

/-- **What is read to its close is pieces** that may stand there, and what closes them. -/
theorem inside_of_readFrom {e : Extent}
    (h : (readFrom braced text pos nest lines lineStart found).2 = some e) :
    ∃ ps rest, Inside braced nest ps ∧ text = spelled ps ++ closing braced :: rest := by
  fun_induction readFrom braced text pos nest lines lineStart found with
  | case1 text pos nest lines lineStart found hc =>
    rw [Bool.and_eq_true, beq_iff_eq, beq_iff_eq] at hc
    obtain ⟨hbyte, rfl⟩ := hc
    refine ⟨[], text.drop 1, .done, ?_⟩
    cases text with
    | nil => exact absurd hbyte.symm (closing_ne_nul braced)
    | cons b text =>
      obtain rfl : b = closing braced := hbyte
      rfl
  | case2 => cases h
  | case3 text pos nest lines lineStart found hc c n hn b crosses ih =>
    obtain ⟨ps, rest, hin, htext⟩ := ih h
    rcases next?_cases hn with ⟨hbreak, rfl, rfl⟩ | ⟨hbreak, hread⟩
    · obtain ⟨qs, hqs, hinside⟩ := exists_lineBreak hbreak
      have hnest : nestAfter true b nest = nest := by
        rw [isLineBreak, Bool.or_eq_true, beq_iff_eq, beq_iff_eq] at hbreak
        rcases hbreak with hb | hb <;> simp only [b, hb] <;> rfl
      rw [hnest] at hin
      refine ⟨qs ++ ps, rest, hinside nest ps hin, ?_⟩
      rw [spelled, List.flatMap_append, List.append_assoc]
      exact hqs.trans (congrArg _ htext)
    · have hfirst : byteAt text 0 ≠ nul := byteAt_ne_nul_of_next? hn
      have hnext : byteAt (text.drop n) 0 ≠ nul := htext ▸ byteAt_spelled_ne_nul ps rest
      obtain ⟨p, hp, -⟩ := piece_of_read hread hfirst hnext
      rw [hp, byteAt_closing, Bool.and_eq_true, beq_iff_eq] at hc
      rw [hp, p.isLineBreak_byteAt] at hbreak
      have hin : Inside braced (p.nest braced nest) ps := by
        rwa [← p.nestAfter_byteAt braced (text.drop n), ← hp]
      refine ⟨p :: ps, rest, .piece hc (fun h => ?_) hin, ?_⟩
      · rw [hbreak] at h
        cases h
      · rw [spelled_cons, List.append_assoc, ← htext, ← hp]

/-- **What is read is pieces** and what stands around them. -/
theorem inside_of_read {e : Extent} (h : (read text).extent = some e) :
    ∃ ps, Inside (byteAt text 0 == braceOpen) 0 ps ∧
      text.take e.length =
        byteAt text 0 :: (spelled ps ++ [closing (byteAt text 0 == braceOpen)]) := by
  obtain ⟨ps, rest, hin, htext⟩ := inside_of_readFrom (e := e) h
  refine ⟨ps, hin, ?_⟩
  cases text with
  | nil =>
    have hnil := congrArg List.length htext
    rw [List.drop_nil, List.length_append] at hnil
    cases hnil
  | cons b text =>
    rw [byteAt_cons_zero] at hin htext ⊢
    rw [List.drop_one, List.tail_cons] at htext
    rw [htext, read_inside hin] at h
    cases h
    have hsplit : b :: text = b :: (spelled ps ++ [closing (b == braceOpen)]) ++ rest := by
      rw [htext, List.cons_append, List.append_assoc]
      rfl
    have hlength : (b :: (spelled ps ++ [closing (b == braceOpen)])).length =
        (spelled ps).length + 2 := by
      rw [List.length_cons, List.length_append]
      rfl
    rw [hsplit, ← hlength]
    exact List.take_left

end Quoted

end RebolScan
