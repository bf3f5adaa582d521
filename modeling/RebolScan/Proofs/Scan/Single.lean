import RebolScan.Proofs.Literal.Radix
import RebolScan.Proofs.Scan.Run

/-!
# Sources of one value

A source whose first element is a value that takes all of it scans to that value and to nothing else
(`scanSource_whole`): one round collects it and the next one meets the end. If it is wrong for the
kind of its lexeme, the scan fails with that (`scanSource_invalid`).

So **binary text comes back through the scanner** (`encode_round_trip`): the digits of any base,
broken into lines anywhere, are read back as the bytes they were written for, be it by the reader of
digits or, in braces behind their base, by a scan.
-/

set_option autoImplicit false

namespace RebolScan

open Ascii Session

/-- A source of which all that stands behind a byte order mark is one element. What the element comes
to, it comes to wherever it stands, and the table that it leaves depends on the one that it meets. -/
theorem scanSource_whole {source text : Bytes} {e : Element} {v : Value} {symbols table : SymbolTable}
    (htext : source.drop (byteOrderMarkLength source) = text)
    (hspace : isSpace (byteAt text 0) = false) (hne : text ≠ [])
    (h : Element.of .top text (Lexeme.ofFront text) = ⟨e, text.length⟩)
    (hv : ∀ nested start s, s.symbols = symbols →
      Scan.perform Scan.standardSetup nested ⟨e, text.length⟩ start s =
        .ok (.value v) { s with cursor := s.cursor.advance text.length, symbols := table }) :
    scanSource source symbols =
      (.ok ⟨[⟨v, false, ⟨byteOrderMarkLength source, source.length⟩⟩], false⟩, table) := by
  generalize hs : Session.start source symbols = s
  have hrest : s.cursor.rest = text := by
    rw [← hs]
    exact htext
  have hstart : s.cursor.start = byteOrderMarkLength source := by
    rw [← hs]
    rfl
  have hsymbols : s.symbols = symbols := by
    rw [← hs]
    rfl
  have hlength : byteOrderMarkLength source + text.length = source.length := by
    rw [← htext, List.length_drop, Nat.add_sub_cancel' (byteOrderMarkLength_le source)]
  obtain ⟨hlooked, hnext⟩ := looked_of_not_space (s := s) (by rwa [hrest])
  rw [hrest] at hnext
  rw [hstart] at hlooked
  have hreading : s.reading .top = ⟨e, text.length⟩ := by
    rw [Session.reading, hnext]
    exact h
  -- Behind the value nothing is left.
  let u : Session :=
    { s.looked with cursor := s.looked.cursor.advance text.length, symbols := table }
  have hperform : Scan.perform Scan.standardSetup (Scan.inside Scan.standardSetup (source.length + 1)
      Options.defaultDepth) (s.reading .top) s.looked.cursor.start s.looked = .ok (.value v) u := by
    rw [hreading]
    exact hv _ _ _ hsymbols
  have hleft : u.cursor.rest = [] := by
    show s.looked.cursor.rest.drop text.length = []
    rw [hnext, List.drop_length]
  have hend : u.looked.cursor.rest = [] := by
    rw [looked_rest, hleft]
    rfl
  have hshorter : s.Shorter u := by
    show u.cursor.rest.length < s.cursor.rest.length
    rw [hleft, hrest]
    exact List.length_pos_iff.2 hne
  have hfuel : s.cursor.rest.length < source.length + 1 := by
    rw [hrest]
    omega
  have hrun : Scan.level Scan.standardSetup (source.length + 1) Options.defaultDepth .top s = _ :=
    Scan.level_of_finishes (.step (Scan.turn_pushes ⟨s.cursor.line, s.cursor.lineStart⟩ .empty
      Level.noConfusion hperform) hshorter (.last (Scan.turn_end _ _ _ hend))) hfuel
  have hspan : u.cursor.start = source.length := by
    show s.looked.cursor.start + text.length = source.length
    rw [hlooked, hlength]
  rw [hlooked, hspan] at hrun
  rw [← hs] at hrun
  exact scanSource_eq_ok.2 ⟨_, hrun, rfl⟩

/-- A source that is all one value. -/
theorem scanSource_single {source : Bytes} {v : Value} (symbols : SymbolTable)
    (hmark : byteOrderMarkLength source = 0) (hspace : isSpace (byteAt source 0) = false)
    (hne : source ≠ [])
    (h : Element.of .top source (Lexeme.ofFront source) = ⟨.value v, source.length⟩) :
    scanSource source symbols = (.ok ⟨[⟨v, false, ⟨0, source.length⟩⟩], false⟩, symbols) := by
  have hwhole : scanSource source symbols =
      (.ok ⟨[⟨v, false, ⟨byteOrderMarkLength source, source.length⟩⟩], false⟩, symbols) := by
    refine scanSource_whole (by rw [hmark, List.drop_zero]) hspace hne h fun nested start s hs => ?_
    subst hs
    rfl
  rwa [hmark] at hwhole

/-- The fault that a source is which is all one token of `kind`. -/
def Fault.ofWhole (kind : TokenKind) (source : Bytes) : Fault where
  kind := .invalid kind
  token := kind
  bytes := Utf8.lossy source
  span := ⟨0, source.length⟩
  line := 1
  near := Utf8.lossy (lineText source 0)

/-- A source that is all one lexeme of a kind that it is wrong for. -/
theorem scanSource_invalid {source : Bytes} {kind : TokenKind} (symbols : SymbolTable)
    (hmark : byteOrderMarkLength source = 0) (hspace : isSpace (byteAt source 0) = false)
    (hlexeme : Lexeme.ofFront source = Lexeme.good kind source.length)
    (h : Element.of .top source (Lexeme.good kind source.length) = Element.bad kind source.length) :
    scanSource source symbols = (.error ⟨Fault.ofWhole kind source, 1⟩, symbols) := by
  have hstart : Session.start source symbols = ⟨⟨source, source, 0, 0, 1, 0⟩, symbols, [], 0⟩ := by
    rw [Session.start, Cursor.afterMark, hmark]
    rfl
  generalize hs : Session.start source symbols = s at hstart
  have hlooked : s.looked = ⟨⟨source, source, 0, source.length, 1, 0⟩, symbols, [], 0⟩ := by
    have hskip : s.cursor.skipSpace = s.cursor :=
      Cursor.skipSpace_of_not_space (by rw [hstart]; exact hspace)
    rw [Session.looked, Cursor.scan, hskip, hstart]
    dsimp only
    rw [hlexeme]
    simp [Lexeme.good]
  have hreading : s.reading .top = Element.bad kind source.length := by
    rw [Session.reading, hlooked]
    dsimp only
    rw [hlexeme, h]
  let u : Session := ⟨⟨source, [], source.length, source.length, 1, 0⟩, symbols, [], 1⟩
  have hperform (nested : Scan.Nested) : Scan.perform Scan.standardSetup nested (s.reading .top)
      s.looked.cursor.start s.looked = .error (Fault.ofWhole kind source) u := by
    have hslice : Span.slice ⟨0, source.length⟩ source = source := by
      rw [Span.slice, between, List.drop_zero, Nat.sub_zero, List.take_length]
    rw [hreading, hlooked]
    show EStateM.Result.error (Fault.mk (.invalid kind) kind
      (Utf8.lossy (Span.slice ⟨0, 0 + source.length⟩ source)) ⟨0, 0 + source.length⟩ 1
      (Utf8.lossy (lineText source 0)))
      (Session.mk ⟨source, source.drop source.length, 0 + source.length, 0 + source.length, 1, 0⟩ symbols [] 1) = _
    rw [Nat.zero_add, hslice, List.drop_length]
    rfl
  have hturn (nested : Scan.Nested) (opened : Site) :
      Scan.turn Scan.standardSetup nested .top opened .empty s = .error (Fault.ofWhole kind source) u := by
    rw [Scan.turn_item (by rw [hreading]; rfl), Scan.item,
      Scan.bind_of_ok (Scan.attempt_of_error (hperform nested))]
    rfl
  have hscan : Setup.scan ⟨.standard, Constructor.standard⟩ source s =
      .error (Fault.ofWhole kind source) u := by
    rw [Setup.scan, Scan.level_eq, Scan.levelWith, Scan.bind_of_ok (x := Scan.site) rfl, Scan.rounds]
    exact Scan.bind_of_error (Scan.bind_of_error (hturn _ _))
  rw [scanSource, transcode, transcodeWith, hs, hscan]
  rfl

/-- **A source that is all one token is read by the reader of its kind**, and refused as a whole where
that refuses it. -/
theorem scanSource_token {source : Bytes} {kind : TokenKind} {v : Option Value} (symbols : SymbolTable)
    (hmark : byteOrderMarkLength source = 0) (hspace : isSpace (byteAt source 0) = false)
    (hne : source ≠ []) (hlexeme : Lexeme.ofFront source = Lexeme.good kind source.length)
    (h : Element.of .top source (Lexeme.good kind source.length) =
      Element.valueOr kind source.length v) :
    (∀ value, v = some value →
      scanSource source symbols = (.ok ⟨[⟨value, false, ⟨0, source.length⟩⟩], false⟩, symbols)) ∧
    (v = none → scanSource source symbols = (.error ⟨Fault.ofWhole kind source, 1⟩, symbols)) := by
  constructor
  · rintro value rfl
    refine scanSource_single symbols hmark hspace hne ?_
    rw [hlexeme, h]
    rfl
  · rintro rfl
    exact scanSource_invalid symbols hmark hspace hlexeme h

/-- A binary starts with a digit or a pound sign. -/
theorem literal_first {base : Radix} {lead : Bytes} (hlead : lead ∈ base.leads) (text : Bytes) :
    byteAt (Radix.literal lead text) 0 ≠ 0xEF ∧
      isSpace (byteAt (Radix.literal lead text) 0) = false := by
  obtain ⟨-, hdigits⟩ := Literal.writtenRadix?_of_leads hlead
  cases lead with
  | nil => exact ⟨show pound ≠ 0xEF by decide, rfl⟩
  | cons b lead => exact plain_of_isDigit (hdigits b List.mem_cons_self)

/-- **Binary text reads back in every base.** What was written for bytes, broken into lines of any
width or of none, decodes to the bytes; without its line feeds it is what is written in one line; and
between braces, behind any spelling of its base, it scans to the one binary. -/
theorem encode_round_trip (base : Radix) (width : Option Nat) (bytes : Bytes) :
    base.decode none (base.encode (width.getD 0) bytes) = some bytes ∧
    (base.encode (width.getD 0) bytes).filter (· != lineFeed) = base.encode 0 bytes ∧
    ∀ lead ∈ base.leads, ∀ symbols,
      scanSource (Radix.literal lead (base.encode (width.getD 0) bytes)) symbols =
        (.ok ⟨[⟨.binary bytes, false,
          ⟨0, (Radix.literal lead (base.encode (width.getD 0) bytes)).length⟩⟩], false⟩, symbols) := by
  generalize width.getD 0 = width
  have hdecode : base.decode none (base.encode width bytes) = some bytes := by
    rw [Radix.encode_eq, Radix.decode_breakLines, Radix.decode_digits]
  have hdigits {d : UInt8} (hd : d ∈ base.encode width bytes) : isRadixByte d = true := by
    rw [Radix.encode_eq] at hd
    rcases Radix.mem_breakLines hd with rfl | hd
    · rfl
    · exact (Radix.mem_digits hd).2
  refine ⟨hdecode, ?_, ?_⟩
  · have hline : lineFeed ∉ base.digits bytes := by
      intro h
      have hspace := (Radix.mem_digits h).1
      cases hspace
    rw [Radix.encode_eq, Radix.encode_eq, Radix.breakLines_zero, Radix.unbroken width hline]
  · intro lead hlead symbols
    generalize base.encode width bytes = text at hdecode hdigits
    obtain ⟨hmark, hspace⟩ := literal_first hlead text
    have hne : Radix.literal lead text ≠ [] :=
      List.append_ne_nil_of_right_ne_nil _ (List.cons_ne_nil _ _)
    refine scanSource_single symbols (byteOrderMarkLength_of_ne hmark) hspace hne ?_
    have hread : Element.of .top (Radix.literal lead text ++ [])
        (Lexeme.ofFront (Radix.literal lead text ++ [])) =
          ⟨.value (.binary bytes), (Radix.literal lead text).length⟩ :=
      Element.of_radixLiteral Level.noConfusion hlead (fun _ => hdigits) hdecode
    rwa [List.append_nil] at hread

/-- `/w==` after `64#{`, broken after three digits -/
theorem encode_round_trip_broken :
    Radix.encode .sixtyFour 3 [0xFF] = [0x2F, 0x77, 0x3D, 0x0A, 0x3D] ∧
    [0x36, 0x34] ∈ Radix.sixtyFour.leads ∧
    scanSource [0x36, 0x34, 0x23, 0x7B, 0x2F, 0x77, 0x3D, 0x0A, 0x3D, 0x7D] .initial =
      (.ok ⟨[⟨.binary [0xFF], false, ⟨0, 10⟩⟩], false⟩, .initial) := by
  have hencode : Radix.encode .sixtyFour 3 [0xFF] = [0x2F, 0x77, 0x3D, 0x0A, 0x3D] := by decide
  have hlead : [0x36, 0x34] ∈ Radix.sixtyFour.leads := List.mem_singleton_self _
  have hscan := (encode_round_trip .sixtyFour (some 3) [0xFF]).2.2 [0x36, 0x34] hlead .initial
  rw [Option.getD_some, hencode] at hscan
  exact ⟨hencode, hlead, hscan⟩

end RebolScan
