import RebolScan.Proofs.Literal.QuotedText
import RebolScan.Proofs.Scan.Run

/-!
# Scanning quoted literals

Strings, quoted file names and binaries in a block come back as what they were written for, in order
(`scanSource_quoted`), however they are mixed. One round reads one literal from its first byte to its
last, **with any text behind it** (`QuotedLiteral.element`), so what a literal spells never depends on
the literals around it.
-/

set_option autoImplicit false

namespace RebolScan

open Ascii

/-- The text is a quoted literal of the value. -/
inductive QuotedLiteral : Bytes → Value → Prop
  | string (s : String) : QuotedLiteral (stringLiteral s) (.string s)
  | file (s : String) : QuotedLiteral (fileLiteral s) (.file s)
  | binary {text bytes : Bytes} (h : HexText text bytes) :
      QuotedLiteral (binaryLiteral text) (.binary bytes)

namespace QuotedLiteral

variable {w : Bytes} {v : Value}

/-- A literal is there, and no space is in front of it. -/
theorem first (h : QuotedLiteral w v) (rest : Bytes) :
    0 < w.length ∧ isSpace (byteAt (w ++ rest) 0) = false := by
  cases h <;> exact ⟨Nat.succ_pos _, rfl⟩

/-- **A quoted literal is read as its value, whatever follows.** -/
theorem element (h : QuotedLiteral w v) {level : Level} (hl : level ≠ .path) (rest : Bytes) :
    Element.of level (w ++ rest) (Lexeme.ofFront (w ++ rest)) = ⟨.value v, w.length⟩ := by
  cases h with
  | string s =>
    rw [Lexeme.ofFront_string, Element.of_lexeme rfl (.inr (.inl rfl)) (.inl hl)]
    rfl
  | file s =>
    obtain ⟨hkind, hwell, hlen⟩ := Lexeme.ofFront_quotedFile s rest
    rw [Element.of_lexeme hwell (.inr (.inl (by rw [hkind]; rfl))) (.inl hl), Element.ofLexeme, hkind,
      hlen]
    dsimp only
    rw [List.take_left, Literal.file?_fileLiteral]
    rfl
  | binary h => exact Element.of_binaryLiteral hl h

end QuotedLiteral

/-- Texts with a space between each and the next. -/
def spaced (texts : List Bytes) : Bytes := [space].intercalate texts

theorem spaced_cons (w : Bytes) (texts : List Bytes) (rest : Bytes) :
    ∃ gap, (gap = [] ∨ gap = [space]) ∧
      spaced (w :: texts) ++ rest = w ++ (gap ++ (spaced texts ++ rest)) := by
  cases texts with
  | nil => exact ⟨[], .inl rfl, by simp [spaced]⟩
  | cons w' texts =>
    refine ⟨[space], .inr rfl, ?_⟩
    simp [spaced, List.intercalate]

namespace Scan

open Session

section

variable {nested : Nested} {literals : List (Bytes × Value)}
  (h : ∀ literal ∈ literals, QuotedLiteral literal.1 literal.2)

include h

/-- In front of literals and a closing bracket there is no space. -/
theorem not_space_literals (rest : Bytes) :
    isSpace (byteAt (spaced (literals.map (·.1)) ++ bracketClose :: rest) 0) = false := by
  cases literals with
  | nil => rfl
  | cons literal literals =>
    obtain ⟨gap, -, hgap⟩ := spaced_cons literal.1 (literals.map (·.1)) (bracketClose :: rest)
    rw [List.map_cons, hgap]
    exact ((h literal List.mem_cons_self).first _).2

/-- **The literals of a block are read one by one**, up to its closing bracket. -/
theorem literals_read (opened : Site) (c : Collected) {s : Session} {rest : Bytes}
    (hs : s.looked.cursor.rest = spaced (literals.map (·.1)) ++ bracketClose :: rest) :
    ∃ (out : Collected) (u : Session) (items : List Item), out.items = items.reverse ++ c.items ∧
      items.map (·.value) = literals.map (·.2) ∧ s.Left u rest ∧
      Finishes nested (.inside .block) opened c s out u := by
  induction literals generalizing c s with
  | nil =>
    obtain ⟨u, hturn, hleft⟩ := turn_closer opened c nested (b := .block) hs
    exact ⟨c, u, [], rfl, rfl, hleft.of_looked, .last hturn⟩
  | cons literal literals ih =>
    obtain ⟨hliteral, hmore⟩ := List.forall_mem_cons.1 h
    obtain ⟨gap, hgap, htext⟩ :=
      spaced_cons literal.1 (literals.map (·.1)) (bracketClose :: rest)
    rw [List.map_cons, htext] at hs
    have hlevel : Level.inside .block ≠ .path := Level.noConfusion
    have hreading : s.reading (.inside .block) = ⟨.value literal.2, literal.1.length⟩ := by
      rw [Session.reading, hs]
      exact hliteral.element hlevel _
    obtain ⟨t, hperform, hleft⟩ := perform_value nested s.looked.cursor.start literal.2 hs
    rw [← hreading] at hperform
    have hturn := turn_pushes opened c hlevel hperform
    -- What separates the literal from the next is passed over in the next round.
    have hnext : t.looked.cursor.rest = spaced (literals.map (·.1)) ++ bracketClose :: rest := by
      have hfirst := dropWhile_of_not_space (not_space_literals hmore rest)
      rw [looked_rest, hleft.rest]
      rcases hgap with rfl | rfl
      · exact hfirst
      · rw [List.singleton_append, List.dropWhile_cons_of_pos rfl]
        exact hfirst
    obtain ⟨out, u, items, hitems, hvalues, hleft', hrun⟩ :=
      ih hmore (c.push literal.2 ⟨s.looked.cursor.start, t.cursor.start⟩) hnext
    refine ⟨out, u, ⟨literal.2, c.newLine, ⟨s.looked.cursor.start, t.cursor.start⟩⟩ :: items, ?_, ?_,
      hleft.of_looked.trans hleft', .step hturn ?_ hrun⟩
    · rw [hitems, List.reverse_cons, List.append_assoc]
      rfl
    · rw [List.map_cons, List.map_cons, hvalues]
    · show t.cursor.rest.length < s.cursor.rest.length
      have hpos := (hliteral.first []).1
      have hle := length_looked_le s
      rw [hs, List.length_append] at hle
      rw [hleft.rest]
      omega

end

end Scan

/-- **Quoted literals decode to what they encode, whatever stands beside them**: between brackets they
are one block of exactly their values, in order. -/
theorem scanSource_quoted {literals : List (Bytes × Value)}
    (h : ∀ literal ∈ literals, QuotedLiteral literal.1 literal.2) (symbols : SymbolTable) :
    ∃ body line span tail table,
      scanSource (bracketOpen :: (spaced (literals.map (·.1)) ++ [bracketClose])) symbols =
        (.ok ⟨[⟨.block .block body, line, span⟩], tail⟩, table) ∧
      body.items.map (·.value) = literals.map (·.2) := by
  generalize hsource : bracketOpen :: (spaced (literals.map (·.1)) ++ [bracketClose]) = source
  have hmark : byteOrderMarkLength source = 0 := by
    rw [← hsource]
    rfl
  have hrest : (Session.start source symbols).cursor.rest = source := by
    show source.drop (byteOrderMarkLength source) = source
    rw [hmark, List.drop_zero]
  have hlooked : (Session.start source symbols).looked.cursor.rest = source := by
    refine (Session.looked_of_not_space ?_).2.trans hrest
    rw [hrest, ← hsource]
    rfl
  -- Behind the opening bracket the literals are next.
  let opened : Session := { (Session.start source symbols).looked with
    cursor := (Session.start source symbols).looked.cursor.advance 1 }
  have hopened : opened.cursor.rest = spaced (literals.map (·.1)) ++ [bracketClose] := by
    show (Session.start source symbols).looked.cursor.rest.drop 1 = _
    rw [hlooked, ← hsource]
    rfl
  have hinner : opened.looked.cursor.rest = spaced (literals.map (·.1)) ++ [bracketClose] := by
    refine (Session.looked_of_not_space ?_).2.trans hopened
    rw [hopened]
    exact Scan.not_space_literals h []
  obtain ⟨out, u, items, hitems, hvalues, hleft, hrun⟩ := Scan.literals_read h
    ⟨opened.cursor.line, opened.cursor.lineStart⟩ .empty hinner
  have hfuel : opened.cursor.rest.length < source.length + 1 := by
    rw [hopened, ← hsource, List.length_cons]
    omega
  have hbody : Scan.inside Scan.standardSetup (source.length + 1) Options.defaultDepth
      (.inside .block) (Session.start source symbols).looked.cursor.start opened =
        .ok out.toBlock u :=
    show Scan.level _ _ 1023 _ _ = _ from Scan.level_of_finishes hrun hfuel
  have hreading : (Session.start source symbols).reading .top = ⟨.opener .block, 1⟩ := by
    rw [Session.reading, hlooked, ← hsource]
    exact Element.of_openBracket .block .top _
  have hperform := Scan.perform_opener (b := .block) hbody
  rw [← hreading] at hperform
  have hturn := Scan.turn_pushes ⟨(Session.start source symbols).cursor.line,
    (Session.start source symbols).cursor.lineStart⟩ .empty Level.noConfusion hperform
  have hend : u.looked.cursor.rest = [] := by
    rw [Session.looked_rest, hleft.rest]
    rfl
  have hshorter : (Session.start source symbols).Shorter u := by
    show u.cursor.rest.length < (Session.start source symbols).cursor.rest.length
    rw [hleft.rest, hrest, ← hsource]
    exact Nat.succ_pos _
  have hscan : Scan.level Scan.standardSetup (source.length + 1) Options.defaultDepth .top
      (Session.start source symbols) = .ok _ _ := Scan.level_of_finishes
    (.step hturn hshorter (.last (Scan.turn_end _ _ _ hend)))
    (show (Session.start source symbols).cursor.rest.length < source.length + 1 by
      rw [hrest]
      exact Nat.lt_succ_self _)
  refine ⟨out.toBlock, false, ⟨(Session.start source symbols).looked.cursor.start, u.cursor.start⟩,
    false, u.looked.symbols, ?_, ?_⟩
  · rw [scanSource, transcode, transcodeWith]
    rw [show Setup.scan ⟨.standard, Constructor.standard⟩ source (Session.start source symbols) = _
      from hscan]
    rfl
  · show out.items.reverse.map (·.value) = _
    rw [hitems, List.reverse_append, List.reverse_reverse]
    exact hvalues

/-- `["a^^" %"b%3B" #{0 a}]` -/
theorem scanSource_quoted_three :
    ∃ body line span tail table,
      scanSource [0x5B, 0x22, 0x61, 0x5E, 0x5E, 0x22, 0x20, 0x25, 0x22, 0x62, 0x25, 0x33, 0x42, 0x22,
        0x20, 0x23, 0x7B, 0x30, 0x20, 0x61, 0x7D, 0x5D] .initial =
        (.ok ⟨[⟨.block .block body, line, span⟩], tail⟩, table) ∧
      body.items.map (·.value) = [.string "a^", .file "b;", .binary [0x0A]] := by
  have hhex : HexText [0x30, 0x20, 0x61] [0x0A] :=
    .byte (show hexDigit? 0x30 = some 0 from rfl) (List.forall_mem_singleton.2 rfl)
      (show hexDigit? 0x61 = some 10 from rfl) .nil
  have h : ∀ literal ∈ [(stringLiteral "a^", Value.string "a^"), (fileLiteral "b;", .file "b;"),
      (binaryLiteral [0x30, 0x20, 0x61], .binary [0x0A])], QuotedLiteral literal.1 literal.2 :=
    List.forall_mem_cons.2 ⟨.string _, List.forall_mem_cons.2 ⟨.file _,
      List.forall_mem_singleton.2 (.binary hhex)⟩⟩
  obtain ⟨body, line, span, tail, table, hscan, hvalues⟩ := scanSource_quoted h .initial
  refine ⟨body, line, span, tail, table, ?_, hvalues⟩
  rw [← hscan]
  refine congrArg (scanSource · _) ?_
  decide +kernel

end RebolScan
