import RebolScan.Proofs.Token.Enclosed

/-!
# What stands between delimiters

Constructions, characters, binaries, strings and tags bring delimiters of their own, and their
lexemes reach from the first to the last of them (`Delimited`). Of all that the first byte of a
lexeme may lead to, only a pound sign, a quote, a brace and a `<` do. **A lexeme of such a kind is
delimited, or it is a sign and then what a pound sign opens** (`ofFront_framed`): a plus or a minus
in front of a pound sign is a part of the lexeme, but no byte of its kind.
-/

set_option autoImplicit false

namespace RebolScan

open Ascii

/-- The kinds of token that have delimiters of their own. -/
def TokenKind.isDelimited : TokenKind → Bool
  | .construct | .char | .binary | .string | .tag => true
  | _ => false

/-- The text is all of a token of its kind, from the first delimiter to the last. Of a construction
it is what opens it. -/
inductive Delimited : TokenKind → Bytes → Prop
  | construct : Delimited .construct [pound, bracketOpen]
  | char (body : Bytes) : Delimited .char (pound :: quote :: (body ++ [quote]))
  | binary {base : Bytes} (hbase : base ∈ [[], [0x32], [0x31, 0x36], [0x36, 0x34]]) (body : Bytes) :
      Delimited .binary (base ++ pound :: braceOpen :: (body ++ [braceClose]))
  | quoted (body : Bytes) : Delimited .string (quote :: (body ++ [quote]))
  | braced (body : Bytes) : Delimited .string (braceOpen :: (body ++ [braceClose]))
  | tag (body : Bytes) : Delimited .tag (lesser :: (body ++ [greater]))

theorem Delimited.ne_nil {kind : TokenKind} {w : Bytes} (h : Delimited kind w) : w ≠ [] := by
  cases h with
  | binary => exact List.append_ne_nil_of_right_ne_nil _ (List.cons_ne_nil _ _)
  | construct | char | quoted | braced | tag => exact List.cons_ne_nil _ _

/-! ## Where the closing delimiter is -/

/-- A quoted text ends with what closes it. -/
theorem Quoted.readFrom_closes {braced : Bool} {rest : Bytes} {pos nest lines lineStart : Nat}
    {found : List Char} {e : Extent}
    (h : (readFrom braced rest pos nest lines lineStart found).2 = some e) :
    byteAt rest (e.length - 1 - pos) = closing braced := by
  fun_induction readFrom braced rest pos nest lines lineStart found with
  | case1 rest pos nest lines lineStart found hc =>
    simp only [Option.some.injEq] at h
    subst h
    rw [Nat.add_sub_cancel, Nat.sub_self]
    exact eq_of_beq (Bool.and_eq_true_iff.1 hc).1
  | case2 => simp at h
  | case3 rest pos nest lines lineStart found hc c n hn b crosses ih =>
    have hclose := ih h
    have hpos := (readFrom_extent h).1
    rwa [byteAt_drop, show n + (e.length - 1 - (pos + n)) = e.length - 1 - pos by omega] at hclose

/-- A tag ends with its `>`. -/
theorem Tag.lengthFrom_closes {quoted : Bool} {pos n : Nat} {rest : Bytes}
    (h : lengthFrom quoted pos rest = some n) : byteAt rest (n - 1 - pos) = greater := by
  induction rest generalizing quoted pos with
  | nil => simp [lengthFrom] at h
  | cons b rest ih =>
    have hnext {quoted : Bool} (h : lengthFrom quoted (pos + 1) rest = some n) :
        byteAt (b :: rest) (n - 1 - pos) = greater := by
      have hpos := (lengthFrom_bounds h).1
      rw [show n - 1 - pos = n - 1 - (pos + 1) + 1 by omega, byteAt_cons_succ]
      exact ih h
    unfold lengthFrom at h
    split at h
    · cases h
    · split at h
      · exact hnext h
      · split at h
        · rename_i hb
          simp only [Option.some.injEq] at h
          subst h
          rw [Nat.add_sub_cancel, Nat.sub_self, byteAt_cons_zero]
          exact eq_of_beq (Bool.and_eq_true_iff.1 hb).1
        · exact hnext h

/-! ## Delimited stretches of a text -/

section

variable {text : Bytes} {start stop i : Nat} {b : UInt8}

/-- A stretch has a byte in front. -/
theorem between_first (h : byteAt text start = b) (hb : b ≠ nul) (hlt : start < stop) :
    between text start stop = b :: between text (start + 1) stop := by
  rw [between_cons hlt (lt_length_of_byteAt (by rwa [h])), h]

/-- And one at the end. -/
theorem between_last (h : byteAt text (stop - 1) = b) (hlt : start < stop)
    (hle : stop ≤ text.length) : between text start stop = between text start (stop - 1) ++ [b] := by
  rw [between_append (show start ≤ stop - 1 by omega) (Nat.sub_le stop 1),
    between_cons (show stop - 1 < stop by omega) (show stop - 1 < text.length by omega), h,
    show stop - 1 + 1 = stop by omega, between_self]

theorem delimited_quoted (hfirst : byteAt text start = quote) (hlast : byteAt text (stop - 1) = quote)
    (hlt : start + 1 < stop) (hle : stop ≤ text.length) : Delimited .string (between text start stop) := by
  rw [between_first hfirst (by decide) (by omega), between_last hlast hlt hle]
  exact .quoted _

theorem delimited_braced (hfirst : byteAt text start = braceOpen)
    (hlast : byteAt text (stop - 1) = braceClose) (hlt : start + 1 < stop) (hle : stop ≤ text.length) :
    Delimited .string (between text start stop) := by
  rw [between_first hfirst (by decide) (by omega), between_last hlast hlt hle]
  exact .braced _

theorem delimited_tag (hfirst : byteAt text start = lesser) (hlast : byteAt text (stop - 1) = greater)
    (hlt : start + 1 < stop) (hle : stop ≤ text.length) : Delimited .tag (between text start stop) := by
  rw [between_first hfirst (by decide) (by omega), between_last hlast hlt hle]
  exact .tag _

theorem delimited_char (hpound : byteAt text start = pound) (hquote : byteAt text (start + 1) = quote)
    (hlast : byteAt text (stop - 1) = quote) (hlt : start + 2 < stop) (hle : stop ≤ text.length) :
    Delimited .char (between text start stop) := by
  rw [between_first hpound (by decide) (by omega), between_first hquote (by decide) (by omega),
    between_last hlast hlt hle]
  exact .char _

/-- A binary starts with the base in front of its pound sign. -/
theorem delimited_binary (hbase : between text start i ∈ [[], [0x32], [0x31, 0x36], [0x36, 0x34]])
    (hi : start ≤ i) (hpound : byteAt text i = pound) (hbrace : byteAt text (i + 1) = braceOpen)
    (hlast : byteAt text (stop - 1) = braceClose) (hlt : i + 2 < stop) (hle : stop ≤ text.length) :
    Delimited .binary (between text start stop) := by
  rw [between_append hi (show i ≤ stop by omega), between_first hpound (by decide) (by omega),
    between_first hbrace (by decide) (by omega), between_last hlast hlt hle]
  exact .binary hbase _

theorem delimited_construct (hpound : byteAt text start = pound)
    (hbracket : byteAt text (start + 1) = bracketOpen) :
    Delimited .construct (between text start (start + 2)) := by
  rw [between_first hpound (by decide) (by omega), between_first hbracket (by decide) (by omega),
    between_self]
  exact .construct

end

namespace Lexeme

variable {f : Front} {kind : TokenKind} {start : Nat}

/-! ## What is of no such kind -/

/-- The lexeme is of no kind that has delimiters of its own, or else it was never closed. -/
def Bare (l : Lexeme) : Prop := l.kind.isDelimited = true → l.malformed = true ∧ l.kind ≠ .construct

theorem bare_good (hk : kind.isDelimited = false) (n : Nat) : Bare (good kind n) := by
  intro h
  rw [show (good kind n).kind = kind from rfl, hk] at h
  cases h

theorem bare_bad (hk : kind ≠ .construct) (n : Nat) : Bare (bad kind n) := fun _ => ⟨rfl, hk⟩

theorem ne_construct (hk : kind.isDelimited = false) : kind ≠ .construct := by
  rintro rfl
  cases hk

theorem bare_file : Bare (file f) := by
  unfold file
  dsimp only
  repeat' split
  all_goals exact Bool.noConfusion

theorem bare_marked {m : Marks} (hk : kind.isDelimited = false) :
    Bare (wordTail.marked kind start f m) := by
  unfold wordTail.marked
  dsimp only
  repeat' split
  all_goals first
    | exact bare_bad (ne_construct hk) _
    | exact bare_good hk _
    | exact Bool.noConfusion

theorem bare_wordTail (hk : kind.isDelimited = false) : Bare (wordTail kind start f) := by
  unfold wordTail
  dsimp only
  repeat' split
  all_goals first
    | exact bare_marked hk
    | exact bare_bad (ne_construct hk) _
    | exact Bool.noConfusion

theorem bare_operatorWord (hk : kind.isDelimited = false) : Bare (operatorWord kind f) := by
  unfold operatorWord
  dsimp only
  repeat' split
  all_goals first
    | exact bare_good hk _
    | exact bare_bad (ne_construct hk) _

theorem bare_slashes {text : Bytes} : Bare (slashes text) := by
  unfold slashes
  dsimp only
  repeat' split
  all_goals first
    | exact bare_wordTail rfl
    | exact Bool.noConfusion

theorem bare_numberBySign : Bare (numberBySign start f) := by
  unfold numberBySign
  dsimp only
  repeat' split
  all_goals exact Bool.noConfusion

theorem bare_colonForm : Bare (colonForm f) := by
  unfold colonForm
  dsimp only
  repeat' split
  all_goals first
    | exact bare_operatorWord rfl
    | exact bare_wordTail rfl
    | exact Bool.noConfusion

theorem bare_tickForm : Bare (tickForm f) := by
  unfold tickForm
  dsimp only
  repeat' split
  all_goals first
    | exact bare_operatorWord rfl
    | exact bare_wordTail rfl
    | exact Bool.noConfusion

theorem bare_comment (text : Bytes) : Bare (comment text) := by
  intro h
  rw [comment_kind] at h
  cases h

/-! ## What is -/

/-- If the lexeme is of a kind that has delimiters, it is delimited from `start` on. -/
def Framed (text : Bytes) (start : Nat) (l : Lexeme) : Prop :=
  Bare l ∨ Delimited l.kind (between text start l.length)

variable {text : Bytes}

/-- A quoted form that is well-formed ends with what closes it. -/
theorem quoted_closes {skip : Nat} (h : (quoted kind text skip).malformed = false) :
    skip + 1 < (quoted kind text skip).length ∧ (quoted kind text skip).length ≤ text.length ∧
      byteAt text ((quoted kind text skip).length - 1) =
        Quoted.closing (byteAt text skip == braceOpen) := by
  unfold quoted at h ⊢
  dsimp only at h ⊢
  cases he : (Quoted.read (text.drop skip)).extent with
  | none =>
    rw [he] at h
    cases h
  | some e =>
    obtain ⟨h1, h2⟩ := Quoted.read_extent he
    have hclose : byteAt ((text.drop skip).drop 1) (e.length - 1 - 1) =
        Quoted.closing (byteAt (text.drop skip) 0 == braceOpen) := Quoted.readFrom_closes he
    rw [List.length_drop] at h2
    rw [byteAt_drop, byteAt_drop, byteAt_drop, Nat.add_zero,
      show skip + (1 + (e.length - 1 - 1)) = skip + e.length - 1 by omega] at hclose
    exact ⟨by dsimp only; omega, by dsimp only; omega, hclose⟩

/-- A character that is well-formed ends with a quote. -/
theorem character_closes {skip : Nat} (h : (character text skip).malformed = false) :
    skip + 2 < (character text skip).length ∧ (character text skip).length ≤ text.length ∧
      byteAt text ((character text skip).length - 1) = quote := by
  unfold character at h ⊢
  split at h
  · rename_i c n hread
    have hwidth := Caret.read_width hread
    split at h
    · rename_i hquote
      have hlt := lt_length_of_byteAt_eq hquote (by decide)
      rw [if_pos hquote]
      refine ⟨?_, hlt, eq_of_beq hquote⟩
      show skip + 2 < skip + 2 + n + 1
      omega
    · cases h
  · cases h

/-- A binary, its base written in front of the pound sign at `p` or not. -/
theorem framed_binary {p : Nat} (hp : start ≤ p)
    (hbase : between text start p ∈ [[], [0x32], [0x31, 0x36], [0x36, 0x34]])
    (hpound : byteAt text p = pound) (hbrace : byteAt text (p + 1) = braceOpen) :
    Framed text start (quoted .binary text (p + 1)) := by
  cases hw : (quoted .binary text (p + 1)).malformed with
  | true => exact .inl fun _ => ⟨hw, by rw [quoted_kind]; exact TokenKind.noConfusion⟩
  | false =>
    obtain ⟨hlt, hle, hlast⟩ := quoted_closes hw
    rw [hbrace] at hlast
    refine .inr ?_
    rw [quoted_kind]
    exact delimited_binary hbase hp hpound hbrace hlast hlt hle

/-- A string, between quotes or braces. -/
theorem framed_string (h : byteAt text 0 = quote ∨ byteAt text 0 = braceOpen) :
    Framed text 0 (quoted .string text 0) := by
  cases hw : (quoted .string text 0).malformed with
  | true => exact .inl fun _ => ⟨hw, by rw [quoted_kind]; exact TokenKind.noConfusion⟩
  | false =>
    obtain ⟨hlt, hle, hlast⟩ := quoted_closes hw
    refine .inr ?_
    rw [quoted_kind]
    rcases h with h | h
    · rw [h] at hlast
      exact delimited_quoted h hlast hlt hle
    · rw [h] at hlast
      exact delimited_braced h hlast hlt hle

theorem framed_poundForm (hpound : f.byte start = pound) : Framed f.text start (poundForm start f) := by
  unfold poundForm
  dsimp only
  split
  · rename_i hbracket
    exact .inr (delimited_construct hpound (eq_of_beq hbracket))
  · split
    · rename_i hquote
      cases hw : (character f.text start).malformed with
      | true => exact .inl fun _ => ⟨hw, by rw [character_kind]; exact TokenKind.noConfusion⟩
      | false =>
        obtain ⟨hlt, hle, hlast⟩ := character_closes hw
        refine .inr ?_
        rw [character_kind]
        exact delimited_char hpound (eq_of_beq hquote) hlast hlt hle
    · split
      · rename_i hbrace
        exact framed_binary (Nat.le_refl start) (by simp [between_self]) hpound (eq_of_beq hbrace)
      · split
        · exact .inl Bool.noConfusion
        · exact .inl Bool.noConfusion

/-- A base in front of a pound sign and a brace is a part of the binary. -/
theorem framed_basePound {p : Nat} (h : basePound? f = some p) : Framed f.text 0 (poundForm p f) := by
  have hfront : byteAt f.text p = pound ∧ byteAt f.text (p + 1) = braceOpen ∧
      between f.text 0 p ∈ [[], [0x32], [0x31, 0x36], [0x36, 0x34]] := by
    unfold basePound? at h
    split at h
    · rename_i hb
      cases h
      simp only [Bool.and_eq_true, beq_iff_eq] at hb
      obtain ⟨⟨htwo, hpound⟩, hbrace⟩ := hb
      refine ⟨hpound, hbrace, ?_⟩
      rw [between_first htwo (by decide) (by decide), between_self]
      simp
    · split at h
      · rename_i hb
        cases h
        simp only [Bool.and_eq_true, Bool.or_eq_true, beq_iff_eq] at hb
        obtain ⟨⟨hdigits, hpound⟩, hbrace⟩ := hb
        refine ⟨hpound, hbrace, ?_⟩
        rcases hdigits with ⟨hfirst, hsecond⟩ | ⟨hfirst, hsecond⟩
        all_goals
          rw [between_first hfirst (by decide) (by decide), between_first hsecond (by decide) (by decide),
            between_self]
          simp
      · cases h
  obtain ⟨hpound, hbrace, hbase⟩ := hfront
  have hform : poundForm p f = quoted .binary f.text (p + 1) := by
    unfold poundForm
    dsimp only
    rw [show f.byte (p + 1) = braceOpen from hbrace]
    rfl
  rw [hform]
  exact framed_binary (Nat.zero_le p) hbase hpound hbrace

theorem framed_number : Framed f.text 0 (number start f) := by
  unfold number
  dsimp only
  repeat' split
  all_goals first
    | exact .inl bare_numberBySign
    | exact .inl Bool.noConfusion
    | skip
  -- What is left is the binary whose base is written in front.
  rename_i p hp
  split at hp
  · exact framed_basePound hp
  · cases hp

/-- Behind a sign, and behind a point, no base is looked for. -/
theorem bare_number (h : start ≠ 0) : Bare (number start f) := by
  unfold number
  dsimp only
  repeat' split
  all_goals first
    | exact bare_numberBySign
    | exact Bool.noConfusion
    | skip
  rename_i p hp
  rw [if_neg (by simpa using h)] at hp
  cases hp

theorem framed_radixPoint {s : Special} : Framed f.text 0 (radixPoint s start f) := by
  unfold radixPoint
  dsimp only
  repeat' split
  all_goals first
    | exact framed_number
    | exact .inl (bare_wordTail rfl)
    | exact .inl Bool.noConfusion

theorem bare_radixPoint {s : Special} (h : start ≠ 0) : Bare (radixPoint s start f) := by
  unfold radixPoint
  dsimp only
  repeat' split
  all_goals first
    | exact bare_number h
    | exact bare_wordTail rfl
    | exact Bool.noConfusion

/-- A tag ends with its `>`. -/
theorem framed_tag {n : Nat} (hfirst : byteAt text 0 = lesser) (h : Tag.length? text = some n) :
    Framed text 0 (good .tag n) := by
  rw [Tag.length?, hfirst, if_pos (by rfl)] at h
  obtain ⟨hlt, hle⟩ := Tag.lengthFrom_bounds h
  have hlast := Tag.lengthFrom_closes h
  have hpos : 0 < text.length := lt_length_of_byteAt (by rw [hfirst]; decide)
  rw [List.length_drop] at hle
  rw [byteAt_drop, show 1 + (n - 1 - 1) = n - 1 by omega] at hlast
  exact .inr (delimited_tag hfirst hlast hlt (show n ≤ text.length by omega))

/-- A tag, or else an operator. -/
theorem framed_angle {s : Special} (hs : byteAt f.text 0 = s.byte) (hangle : s = .lesser ∨ s = .greater) :
    Framed f.text 0 (angle s f) := by
  unfold angle
  dsimp only
  repeat' split
  all_goals first
    | exact .inl Bool.noConfusion
    | exact .inl (bare_bad TokenKind.noConfusion _)
    | skip
  rename_i hgreater _ n hn
  have hlesser : s = .lesser := hangle.resolve_right (by simpa using hgreater)
  rw [hlesser] at hs
  exact framed_tag hs hn

/-- **Behind a sign** a pound sign opens what it opens without one. -/
theorem signed_delimited : Bare (signed f) ∨
    f.byte 1 = pound ∧ Delimited (signed f).kind (between f.text 1 (signed f).length) := by
  unfold signed
  dsimp only
  split
  · exact .inl Bool.noConfusion
  · split
    · repeat' split
      all_goals first
        | exact .inl (bare_wordTail rfl)
        | exact .inl Bool.noConfusion
    · split
      · exact .inl (bare_number Nat.one_ne_zero)
      · exact .inl (bare_radixPoint Nat.one_ne_zero)
      · exact .inl (bare_radixPoint Nat.one_ne_zero)
      · rename_i hpound
        have hpound : f.byte 1 = pound := eq_byte_of_class hpound
        exact (framed_poundForm hpound).imp_right fun h => ⟨hpound, h⟩
      all_goals first
        | exact .inl (bare_wordTail rfl)
        | exact .inl Bool.noConfusion

theorem special_framed {s : Special} (hs : byteAt f.text 0 = s.byte) (hplus : s ≠ .plus)
    (hminus : s ≠ .minus) : Framed f.text 0 (special s f) := by
  unfold special
  split
  · exact .inl Bool.noConfusion
  · cases s with
    | atSign | dollar | backslash => exact .inl Bool.noConfusion
    | percent => exact .inl bare_file
    | colon => exact .inl bare_colonForm
    | tick => exact .inl bare_tickForm
    | comma | period => exact framed_radixPoint
    | greater => exact framed_angle hs (.inr rfl)
    | lesser => exact framed_angle hs (.inl rfl)
    | plus => exact absurd rfl hplus
    | minus => exact absurd rfl hminus
    | pound => exact framed_poundForm hs

theorem framed_delimited {d : Delimiter} (hd : ByteClass.of (byteAt text 0) = .delimiter d) :
    Framed text 0 (delimited d text) := by
  have hrow (hs : d ≠ .space) : (byteAt text 0, d) ∈ delimiterTable := mem_delimiterTable hd hs
  cases d with
  | space | semicolon => exact .inl (bare_comment text)
  | lineFeed | carriageReturn => exact .inl Bool.noConfusion
  | leftBracket | rightBracket | leftParen | rightParen => exact .inl Bool.noConfusion
  | quote => exact framed_string (.inl (by simpa [delimiterTable] using hrow))
  | leftBrace => exact framed_string (.inr (by simpa [delimiterTable] using hrow))
  | rightBrace => exact .inl (bare_bad TokenKind.noConfusion 1)
  | slash => exact .inl bare_slashes
  | endOfInput =>
    unfold delimited
    dsimp only
    split
    · exact .inl Bool.noConfusion
    · exact .inl Bool.noConfusion
  | utf8Error => exact .inl Bool.noConfusion

/-- **A lexeme with no sign in front is delimited**, if it is of a kind that has delimiters. -/
theorem ofFront_framed (hplus : byteAt text 0 ≠ plus) (hminus : byteAt text 0 ≠ minus) :
    Framed text 0 (ofFront text) := by
  unfold ofFront
  split
  · rename_i d hd
    exact framed_delimited hd
  · rename_i s hs
    have hbyte := eq_byte_of_class hs
    refine special_framed (f := Front.of text) hbyte ?_ ?_
    · rintro rfl
      exact hplus hbyte
    · rintro rfl
      exact hminus hbyte
  · dsimp only
    split
    · exact .inl Bool.noConfusion
    · exact .inl (bare_wordTail rfl)
  · exact framed_number (f := Front.of text)

/-- **Behind a sign it is what is behind the sign** that is delimited, and starts with a pound sign. -/
theorem ofFront_signed_delimited (hsign : byteAt text 0 = plus ∨ byteAt text 0 = minus) :
    Bare (ofFront text) ∨
      byteAt text 1 = pound ∧ Delimited (ofFront text).kind (between text 1 (ofFront text).length) := by
  have hspecial : ∃ s, (s = .plus ∨ s = .minus) ∧ ofFront text = special s (Front.of text) := by
    rcases hsign with h | h
    · exact ⟨.plus, .inl rfl, by rw [ofFront, h]; rfl⟩
    · exact ⟨.minus, .inr rfl, by rw [ofFront, h]; rfl⟩
  obtain ⟨s, hs, hof⟩ := hspecial
  rw [hof]
  unfold special
  split
  · exact .inl Bool.noConfusion
  · rcases hs with rfl | rfl
    · exact signed_delimited (f := Front.of text)
    · exact signed_delimited (f := Front.of text)

section

variable (hgood : (ofFront text).malformed = false)
  (hkind : (ofFront text).kind.isDelimited = true)

include hgood hkind

theorem not_bare : ¬Bare (ofFront text) := by
  intro h
  have hbad := (h hkind).1
  rw [hgood] at hbad
  cases hbad

/-- All that such a lexeme takes is delimited. -/
theorem take_delimited (hplus : byteAt text 0 ≠ plus) (hminus : byteAt text 0 ≠ minus) :
    Delimited (ofFront text).kind (text.take (ofFront text).length) :=
  (ofFront_framed hplus hminus).resolve_left (not_bare hgood hkind)

/-- Or all but a sign. -/
theorem take_signed (hsign : byteAt text 0 = plus ∨ byteAt text 0 = minus) :
    ∃ w, text.take (ofFront text).length = byteAt text 0 :: w ∧ byteAt w 0 = pound ∧
      Delimited (ofFront text).kind w := by
  obtain ⟨hpound, hdelimited⟩ :=
    (ofFront_signed_delimited hsign).resolve_left (not_bare hgood hkind)
  have hnul : byteAt text 0 ≠ nul := by
    rcases hsign with h | h <;> rw [h] <;> decide
  have hlength : 1 < (ofFront text).length := by
    rw [← Nat.not_le]
    intro hle
    apply hdelimited.ne_nil
    rw [between, Nat.sub_eq_zero_of_le hle, List.take_zero]
  have hall : between text 0 (ofFront text).length =
      byteAt text 0 :: between text 1 (ofFront text).length :=
    between_first rfl hnul (Nat.zero_lt_of_lt hlength)
  refine ⟨_, hall, ?_, hdelimited⟩
  rw [between_first hpound (by decide) hlength]
  rfl

end

end Lexeme

/-! ## Where a construction opens -/

theorem Delimited.of_construct {w : Bytes} (h : Delimited .construct w) : w = [pound, bracketOpen] := by
  cases h
  rfl

theorem between_infix (text : Bytes) (start stop : Nat) : between text start stop <:+: text :=
  (List.take_prefix _ _).isInfix.trans (List.drop_suffix start text).isInfix

/-- **A construction opens with `#[`.** -/
theorem Lexeme.construct_of_kind {text : Bytes} (h : (ofFront text).kind = .construct) :
    [pound, bracketOpen] <:+: text := by
  have hbare (hb : Bare (ofFront text)) : [pound, bracketOpen] <:+: text :=
    absurd h (hb (by rw [h]; rfl)).2
  have hopens {start stop : Nat} (hd : Delimited (ofFront text).kind (between text start stop)) :
      [pound, bracketOpen] <:+: text := by
    rw [h] at hd
    rw [← hd.of_construct]
    exact between_infix text start stop
  by_cases hsign : byteAt text 0 = plus ∨ byteAt text 0 = minus
  · rcases ofFront_signed_delimited hsign with hb | ⟨-, hd⟩
    · exact hbare hb
    · exact hopens hd
  · rw [not_or] at hsign
    rcases ofFront_framed hsign.1 hsign.2 with hb | hd
    · exact hbare hb
    · exact hopens hd

end RebolScan
