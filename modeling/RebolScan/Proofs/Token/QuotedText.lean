import RebolScan.Proofs.Literal.Written
import RebolScan.Proofs.Text.Utf8
import RebolScan.Proofs.Token.Written

/-!
# Quoted literals

How any text is written as a string and as a quoted file name, and that the lexeme at the front of such
a literal is the literal **whatever follows it**: a quoted form carries its own end, so nothing of what
stands behind it is looked at.

A string is read character by character, and an escape is one character (`next?_stringChar`). The
escapes of a file name are no escapes to the tokenizer, which passes over them as it does over other
text (`Passes`).
-/

set_option autoImplicit false

namespace RebolScan

open Ascii

/-! ## How literals are written -/

/-- A character in a string: a caret, a quote, the two line breaks and NUL are escaped. -/
def stringChar (c : Char) : Bytes :=
  if c = '^' then [caret, caret]
  else if c = '"' then [caret, quote]
  else if c = '\n' then [caret, slash]
  else if c = '\r' then [caret, 0x4D]
  else if c = '\x00' then [caret, atSign]
  else String.utf8EncodeChar c

/-- A text between quotes. -/
def stringLiteral (s : String) : Bytes := quote :: (s.toList.flatMap stringChar ++ [quote])

/-- The characters that a quoted file name holds escaped only. -/
def isFileEscaped (c : Char) : Bool :=
  c.toNat < 0x20 || c == '"' || c == '%' || c == '^' || c == '\\' || c == ':' || c == ';'

/-- A character in a quoted file name: some are escaped as a percent sign and two digits. -/
def fileChar (c : Char) : Bytes :=
  if isFileEscaped c then percent :: Radix.nibbleDigits (UInt8.ofNat c.toNat)
  else String.utf8EncodeChar c

/-- A text between a percent sign with a quote and another quote. -/
def fileLiteral (s : String) : Bytes :=
  percent :: quote :: (s.toList.flatMap fileChar ++ [quote])

/-! ## Text between quotes -/

namespace Caret

/-- A character that is no caret stands for itself. -/
theorem read_plain {c : Char} (h : c ≠ '^') (rest : Bytes) :
    read (String.utf8EncodeChar c ++ rest) = some (c, (String.utf8EncodeChar c).length) := by
  have hcaret : (byteAt (String.utf8EncodeChar c ++ rest) 0 == caret) = false :=
    beq_false_of_ne (Utf8.byteAt_encodeChar_ne (d := '^') (by decide) h rest)
  rw [read, hcaret]
  by_cases hc : c.toNat < 128
  · have hascii : ¬(0x80 : UInt8) ≤ UInt8.ofNat c.toNat := by
      rw [UInt8.le_iff_toNat_le, UInt8.toNat_ofNat_of_lt' (by show _ < 256; omega)]
      exact Nat.not_le.2 hc
    rw [Utf8.encodeChar_ascii hc, List.singleton_append, byteAt_cons_zero]
    dsimp only
    rw [if_neg hascii, if_neg Bool.noConfusion, UInt8.toNat_ofNat_of_lt' (by show _ < 256; omega),
      Char.ofNat_toNat]
    rfl
  · obtain ⟨b, w, hw, hb⟩ := Utf8.encodeChar_wide (Nat.not_lt.1 hc)
    have hfirst : byteAt (String.utf8EncodeChar c ++ rest) 0 = b := by
      rw [hw, List.cons_append, byteAt_cons_zero]
    dsimp only
    rw [hfirst, if_pos hb]
    exact Utf8.decodeChar_encode c rest

end Caret

namespace Quoted

/-- No line break, no NUL and no quote is the first byte. -/
structure Inner (text : Bytes) : Prop where
  quote : byteAt text 0 ≠ Ascii.quote
  lineEnd : isLineEnd (byteAt text 0) = false

theorem Inner.next? {text : Bytes} (h : Inner text) : next? false text = Caret.read text := by
  have hline := h.lineEnd
  rw [isLineEnd, Bool.or_eq_false_iff] at hline
  simp only [Quoted.next?, hline.1, hline.2]
  rfl

/-- A character that need not be escaped is read as it stands. -/
theorem inner_plain {c : Char} (hquote : c ≠ '"') (hfeed : c ≠ '\n') (hreturn : c ≠ '\r')
    (hnul : c ≠ '\x00') (rest : Bytes) : Inner (String.utf8EncodeChar c ++ rest) where
  quote := Utf8.byteAt_encodeChar_ne (d := '"') (by decide) hquote rest
  lineEnd := by
    have h₁ := beq_false_of_ne (Utf8.byteAt_encodeChar_ne (d := '\n') (by decide) hfeed rest)
    have h₂ := beq_false_of_ne (Utf8.byteAt_encodeChar_ne (d := '\r') (by decide) hreturn rest)
    have h₃ := beq_false_of_ne (Utf8.byteAt_encodeChar_ne (d := '\x00') (by decide) hnul rest)
    rw [isLineEnd, isLineBreak, Bool.or_eq_false_iff, Bool.or_eq_false_iff]
    exact ⟨⟨h₁, h₂⟩, h₃⟩

theorem inner_caret (rest : Bytes) : Inner (caret :: rest) where
  quote := by
    rw [byteAt_cons_zero]
    decide
  lineEnd := rfl

/-- **Each character of a string is read back**, escaped or not. -/
theorem next?_stringChar (c : Char) (rest : Bytes) :
    Inner (stringChar c ++ rest) ∧
      Caret.read (stringChar c ++ rest) = some (c, (stringChar c).length) := by
  unfold stringChar
  split
  · rename_i h
    exact ⟨inner_caret _, by rw [h]; rfl⟩
  · rename_i hcaret
    split
    · rename_i h
      exact ⟨inner_caret _, by rw [h]; rfl⟩
    · rename_i hquote
      split
      · rename_i h
        exact ⟨inner_caret _, by rw [h]; rfl⟩
      · rename_i hfeed
        split
        · rename_i h
          exact ⟨inner_caret _, by rw [h]; rfl⟩
        · rename_i hreturn
          split
          · rename_i h
            exact ⟨inner_caret _, by rw [h]; rfl⟩
          · rename_i hnul
            exact ⟨inner_plain hquote hfeed hreturn hnul rest, Caret.read_plain hcaret rest⟩

/-- Between quotes the text `v` is passed over, as the characters `chars`, whatever follows. -/
def Passes (v : Bytes) (chars : List Char) : Prop :=
  ∀ rest pos lines lineStart found,
    readFrom false (v ++ rest) pos 0 lines lineStart found =
      readFrom false rest (pos + v.length) 0 lines lineStart (chars.reverse ++ found)

theorem passes_nil : Passes [] [] := fun _ _ _ _ _ => rfl

theorem Passes.append {v w : Bytes} {cs ds : List Char} (hv : Passes v cs) (hw : Passes w ds) :
    Passes (v ++ w) (cs ++ ds) := by
  intro rest pos lines lineStart found
  rw [List.append_assoc, hv, hw, List.length_append, Nat.add_assoc, List.reverse_append,
    List.append_assoc]

/-- What is read as one character is passed over as one. -/
theorem passes_char {v : Bytes} {c : Char}
    (h : ∀ rest, Inner (v ++ rest) ∧ Caret.read (v ++ rest) = some (c, v.length)) :
    Passes v [c] := by
  intro rest pos lines lineStart found
  obtain ⟨hinner, hread⟩ := h rest
  have hnext : next? false (v ++ rest) = some (c, v.length) := hinner.next?.trans hread
  have hclose : ¬(byteAt (v ++ rest) 0 == closing false && (0 : Nat) == 0) = true := by
    simpa [closing] using hinner.quote
  have hline := hinner.lineEnd
  rw [isLineEnd, Bool.or_eq_false_iff] at hline
  rw [readFrom_next hclose hnext, hline.1, List.drop_left]
  rfl

/-- One byte that is no escape, no quote and no line break. -/
theorem passes_byte {b : UInt8} (hascii : b < 0x80) (hcaret : b ≠ caret) (hquote : b ≠ Ascii.quote)
    (hline : isLineEnd b = false) : Passes [b] [Char.ofNat b.toNat] := by
  refine passes_char fun rest => ⟨⟨?_, ?_⟩, ?_⟩
  · rwa [List.singleton_append, byteAt_cons_zero]
  · rwa [List.singleton_append, byteAt_cons_zero]
  · simp [Caret.read, hcaret, UInt8.not_le.2 hascii]

/-- Character by character. -/
theorem passes_flatMap {f : Char → Bytes} {g : Char → List Char} (h : ∀ c, Passes (f c) (g c))
    (chars : List Char) : Passes (chars.flatMap f) (chars.flatMap g) := by
  induction chars with
  | nil => exact passes_nil
  | cons c chars ih =>
    rw [List.flatMap_cons, List.flatMap_cons]
    exact (h c).append ih

theorem passes_stringChar (c : Char) : Passes (stringChar c) [c] :=
  passes_char (next?_stringChar c)

theorem not_lineEnd_of_not_space : ∀ d, isAnySpace d = false → isLineEnd d = false := by
  intro d hd
  have hne {c : UInt8} (hc : isAnySpace c = true) : (d == c) = false :=
    beq_false_of_ne fun h => by rw [h, hc] at hd; cases hd
  rw [isLineEnd, isLineBreak, @hne lineFeed rfl, @hne carriageReturn rfl, @hne nul rfl]
  rfl

theorem passes_fileChar (c : Char) : ∃ chars, Passes (fileChar c) chars := by
  unfold fileChar
  split
  · have hpercent : Passes [percent] [Char.ofNat percent.toNat] :=
      passes_byte (by decide) (by decide) (by decide) rfl
    have hdigit (d : UInt8) (hd : d ∈ Radix.nibbleDigits (UInt8.ofNat c.toNat)) :
        Passes [d] [Char.ofNat d.toNat] := by
      obtain ⟨hspace, -, -, hcaret, hascii⟩ := Radix.nibbleDigits_plain hd
      refine passes_byte hascii hcaret ?_ (not_lineEnd_of_not_space d hspace)
      rintro rfl
      revert hd
      have hall : ∀ n : Fin 16, Radix.nibbleDigit n ≠ quote := by decide
      intro hd
      have hc := (UInt8.ofNat c.toNat).toNat_lt
      rcases List.mem_cons.1 hd with he | hd
      · exact hall ⟨(UInt8.ofNat c.toNat).toNat / 16, by omega⟩ he.symm
      · exact hall ⟨(UInt8.ofNat c.toNat).toNat % 16, by omega⟩ (List.mem_singleton.1 hd).symm
    exact ⟨_, hpercent.append ((hdigit _ List.mem_cons_self).append
      (hdigit _ (List.mem_cons_of_mem _ List.mem_cons_self)))⟩
  · rename_i h
    simp only [isFileEscaped, Bool.or_eq_true, not_or, decide_eq_true_eq, beq_iff_eq] at h
    obtain ⟨⟨⟨⟨⟨⟨hcontrol, hquote⟩, -⟩, hcaret⟩, -⟩, -⟩, -⟩ := h
    have hne {d : Char} (hd : d.toNat < 0x20) : c ≠ d := by
      rintro rfl
      exact hcontrol hd
    exact ⟨[c], passes_char fun rest => ⟨inner_plain hquote (hne (by decide)) (hne (by decide))
      (hne (by decide)) rest, Caret.read_plain hcaret rest⟩⟩

/-- What is passed over up to a quote is the text between quotes. -/
theorem read_passes {v : Bytes} {chars : List Char} (h : Passes v chars) (rest : Bytes) :
    read (Ascii.quote :: (v ++ Ascii.quote :: rest)) =
      ⟨String.ofList chars, some ⟨v.length + 2, 0, 0⟩⟩ := by
  have hread : readFrom false (v ++ Ascii.quote :: rest) 1 0 0 0 [] =
      (chars, some ⟨v.length + 2, 0, 0⟩) := by
    rw [h, readFrom]
    show ((chars.reverse ++ []).reverse, some (Extent.mk (1 + v.length + 1) 0 0)) = _
    rw [List.append_nil, List.reverse_reverse]
    congr 3
    omega
  show Reading.mk (String.ofList (readFrom false _ 1 0 0 0 []).1)
    (readFrom false _ 1 0 0 0 []).2 = _
  rw [List.drop_one, List.tail_cons, hread]

end Quoted

/-! ## Lexemes -/

namespace Lexeme

/-- **A string** is the lexeme in front of it, with the text that it spells. -/
theorem ofFront_string (s : String) (rest : Bytes) :
    ofFront (stringLiteral s ++ rest) =
      ⟨.string, false, (stringLiteral s).length, 0, none, some s⟩ := by
  have hpasses : Quoted.Passes (s.toList.flatMap stringChar) s.toList := by
    have h := Quoted.passes_flatMap Quoted.passes_stringChar s.toList
    rwa [List.flatMap_singleton'] at h
  have htext : stringLiteral s ++ rest =
      quote :: (s.toList.flatMap stringChar ++ quote :: rest) := by
    rw [stringLiteral, List.cons_append, List.append_assoc]
    rfl
  have hread := Quoted.read_passes hpasses rest
  rw [String.ofList_toList] at hread
  have hlength : (stringLiteral s).length = 0 + ((s.toList.flatMap stringChar).length + 2) := by
    simp only [stringLiteral, List.length_cons, List.length_append, List.length_nil]
    omega
  rw [htext, hlength]
  show quoted .string (quote :: (s.toList.flatMap stringChar ++ quote :: rest)) 0 = _
  rw [quoted, List.drop_zero, hread]
  rfl

/-- A file name whose quotes close ends with them. -/
theorem file_quoted {text : Bytes} {m : Marks} {name : String} {e : Quoted.Extent}
    (hquote : byteAt text 0 = quote) (hread : Quoted.read text = ⟨name, some e⟩) :
    (file ⟨percent :: text, [percent], m⟩).kind = .file ∧
      (file ⟨percent :: text, [percent], m⟩).malformed = false ∧
      (file ⟨percent :: text, [percent], m⟩).length = 1 + e.length := by
  have hbyte : (Front.byte ⟨percent :: text, [percent], m⟩
      (Front.stop ⟨percent :: text, [percent], m⟩) == quote) = true := beq_iff_eq.2 hquote
  have hread : Quoted.read (List.drop (Front.stop ⟨percent :: text, [percent], m⟩)
      (percent :: text)) = ⟨name, some e⟩ := hread
  unfold file
  dsimp only
  rw [if_pos hbyte, hread]
  exact ⟨rfl, rfl, rfl⟩

/-- A file name whose quotes do not close is malformed. -/
theorem file_unclosed {text : Bytes} {m : Marks} (hquote : byteAt text 0 = quote)
    (hread : (Quoted.read text).extent = none) :
    (file ⟨percent :: text, [percent], m⟩).malformed = true := by
  have hbyte : (Front.byte ⟨percent :: text, [percent], m⟩
      (Front.stop ⟨percent :: text, [percent], m⟩) == quote) = true := beq_iff_eq.2 hquote
  have hread : (Quoted.read (List.drop (Front.stop ⟨percent :: text, [percent], m⟩)
      (percent :: text))).extent = none := hread
  unfold file
  dsimp only
  rw [if_pos hbyte, hread]
  rfl

/-- Where a quote stands behind a percent sign, the run is the percent sign. -/
theorem ofFront_percent (rest : Bytes) :
    ofFront (percent :: quote :: rest) =
      file ⟨percent :: quote :: rest, [percent], Marks.ofRun [percent]⟩ := by
  have hrun : Solid [.percent] [percent] := Solid.cons rfl fun _ h => absurd h List.not_mem_nil
  have hof : Front.of (percent :: quote :: rest) =
      ⟨percent :: quote :: rest, [percent], Marks.ofRun [percent]⟩ := hrun.front rfl
  have hat : (Marks.ofRun [percent]).has .atSign = false := hrun.has_run (by decide)
  show special .percent (Front.of _) = _
  rw [hof, special, Front.has, hat]
  rfl

/-- **A quoted file name** is the lexeme in front of it. -/
theorem ofFront_quotedFile (s : String) (rest : Bytes) :
    (ofFront (fileLiteral s ++ rest)).kind = .file ∧
    (ofFront (fileLiteral s ++ rest)).malformed = false ∧
    (ofFront (fileLiteral s ++ rest)).length = (fileLiteral s).length := by
  obtain ⟨chars, hpasses⟩ : ∃ chars, Quoted.Passes (s.toList.flatMap fileChar) chars := by
    obtain ⟨g, hg⟩ := Classical.axiomOfChoice Quoted.passes_fileChar
    exact ⟨_, Quoted.passes_flatMap hg s.toList⟩
  have htext : fileLiteral s ++ rest =
      percent :: quote :: (s.toList.flatMap fileChar ++ quote :: rest) := by
    rw [fileLiteral, List.cons_append, List.cons_append, List.append_assoc]
    rfl
  have hread := Quoted.read_passes hpasses rest
  have hlength : (fileLiteral s).length = 1 + ((s.toList.flatMap fileChar).length + 2) := by
    simp only [fileLiteral, List.length_cons, List.length_append, List.length_nil]
    omega
  rw [htext, ofFront_percent, hlength]
  exact file_quoted rfl hread

end Lexeme

end RebolScan
