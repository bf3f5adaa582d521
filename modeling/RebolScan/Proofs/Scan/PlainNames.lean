import RebolScan.Proofs.Scan.Interned
import RebolScan.Proofs.Scan.Names
import RebolScan.Proofs.Scan.Progress
import RebolScan.Proofs.Token.PlainNames

/-!
# Names scanned again

Every word in the values of a scan has a name that a word may have, and the table that the scan leaves
gives the name back for its symbol. **The name is a word by itself, under the same symbol, if it is
plain and not otherwise** (`scanWord_lookup`): behind a mark and in front of a tag other names are
taken for words as well.
-/

set_option autoImplicit false

namespace RebolScan

open Ascii

/-! ## The names of the words -/

/-- Words, whose names are such as words may have. -/
def Watch.words : Watch := ⟨Finder.words, fun name => IsWordName (Utf8.encode name)⟩

theorem Watch.holds_words : words.Holds where
  finds := Finder.findsWords_words
  word level text kind name h := (Element.named_of level text kind name h).1
  issue _ _ h := absurd rfl h

/-- The words in the values of a scan are known to its table, under names that words may have. -/
theorem scanSource_words {source : Bytes} {symbols table : SymbolTable} {body : Block}
    (h : scanSource source symbols = (.ok body, table)) {s : Symbol}
    (hs : s ∈ Finder.words.items body.items) :
    table.get? (table.lookup s) = some s ∧ IsWordName (Utf8.encode (table.lookup s)) := by
  obtain ⟨names, hnames, hgiven⟩ := transcodeWith_watched Watch.holds_words
    (Constructor.frugal_standard Finder.findsWords_words) source symbols .standard
  rw [scanSource, transcode] at h
  cases hscan : transcodeWith Constructor.standard source symbols .standard with
  | mk result t =>
    rw [hscan] at h hnames hgiven
    cases result with
    | error f => cases h
    | ok t' =>
      cases h
      obtain ⟨n, hn, rfl, hname⟩ := hgiven t' rfl s hs
      have hget := hnames.get? n hn
      rw [SymbolTable.lookup_of_get? hget]
      exact ⟨hget, hname⟩

/-! ## One name -/

/-- No space is in front of a name that a word may have. -/
theorem IsWordName.not_space {name : Bytes} (h : IsWordName name) :
    isSpace (byteAt name 0) = false := by
  cases h with
  | slashes n => rfl
  | operator h =>
    have hall : ∀ w ∈ angleOperators, isSpace (byteAt w 0) = false := by decide
    exact hall _ h
  | loose hb hw => exact not_space_of_isSolid hb

/-- Behind a byte order mark, where no space may be, the lexeme decides: it has to be a word and all of
the text. -/
theorem scanWord_eq {source text : Bytes} (symbols : SymbolTable)
    (htext : source.drop (byteOrderMarkLength source) = text) (hspace : isSpace (byteAt text 0) = false) :
    scanWord source symbols =
      if (Lexeme.ofFront text).isWholeWord text.length then
        match Utf8.decode? text with
        | some name => (some (symbols.intern name).1, (symbols.intern name).2)
        | none => (none, symbols)
      else (none, symbols) := by
  have hlength : byteOrderMarkLength source + text.length = source.length := by
    rw [← htext, List.length_drop, Nat.add_sub_cancel' (byteOrderMarkLength_le source)]
  have hstart : Cursor.afterMark source =
      ⟨source, text, byteOrderMarkLength source, byteOrderMarkLength source, 1,
        byteOrderMarkLength source⟩ := by
    rw [Cursor.afterMark, htext]
  have hskip : (Cursor.afterMark source).skipSpace = Cursor.afterMark source :=
    Cursor.skipSpace_of_not_space (by rw [hstart]; exact hspace)
  unfold scanWord
  rw [Cursor.scan, hskip, hstart]
  dsimp only
  generalize byteOrderMarkLength source = mark at htext hlength
  generalize Lexeme.ofFront text = l
  have hstop : (mark + l.length == source.length) = (l.length == text.length) := by
    rw [← hlength]
    simp
  have hwhole : (l.malformed || l.kind != .word || mark != mark || mark + l.length != source.length) =
      !l.isWholeWord text.length := by
    simp only [Lexeme.isWholeWord, bne, beq_self_eq_true, Bool.not_true, Bool.or_false, hstop,
      Bool.not_and, Bool.not_not]
  rw [hwhole]
  cases hword : l.isWholeWord text.length with
  | false => rfl
  | true =>
    simp only [Lexeme.isWholeWord, Bool.and_eq_true, beq_iff_eq] at hword
    have hbytes : Cursor.bytes ⟨source, text, mark, mark + l.length, 1 + l.lines,
        (l.lineStart.map (mark + ·)).getD mark⟩ = text := by
      rw [Cursor.bytes, between, htext, Nat.add_sub_cancel_left, hword.2, List.take_length]
    rw [hbytes]
    rfl

/-- A space in front is no word. -/
theorem scanWord_of_space {source : Bytes} (symbols : SymbolTable)
    (hspace : isSpace (byteAt (source.drop (byteOrderMarkLength source)) 0) = true) :
    scanWord source symbols = (none, symbols) := by
  have hpos : 0 < ((Cursor.afterMark source).rest.takeWhile isSpace).length := by
    refine length_takeWhile_pos (fun hnil => ?_) hspace
    have hnil : source.drop (byteOrderMarkLength source) = [] := hnil
    rw [hnil] at hspace
    cases hspace
  have hstart : (Cursor.afterMark source).scan.2.start ≠ byteOrderMarkLength source :=
    Nat.ne_of_gt (Nat.lt_add_of_pos_right hpos)
  unfold scanWord
  generalize (Cursor.afterMark source).scan = looked at hstart
  obtain ⟨l, c⟩ := looked
  simp [bne_iff_ne.2 hstart]

section

variable {name : String} {s : Symbol} {table : SymbolTable} (hget : table.get? name = some s)

include hget

/-- Without a byte order mark the lexeme in front decides. -/
theorem scanWord_name (hname : IsWordName (Utf8.encode name))
    (hmark : byteOrderMarkLength (Utf8.encode name) = 0) :
    scanWord (Utf8.encode name) table =
      (if isPlainName (Utf8.encode name) then (some s, table) else (none, table)) := by
  rw [scanWord_eq table (by rw [hmark, List.drop_zero]) hname.not_space,
    Lexeme.isWholeWord_ofFront hname hmark, Utf8.decode?_encode]
  dsimp only
  rw [SymbolTable.intern_of_get? hget]

/-- Behind a byte order mark another name is looked for. -/
theorem scanWord_mark (hmark : byteOrderMarkLength (Utf8.encode name) ≠ 0) :
    scanWord (Utf8.encode name) table ≠ (some s, table) := by
  intro h
  rcases scanWord_interns (Utf8.encode name) table with hnone | ⟨other, hother, hsome⟩
  · rw [h] at hnone
    cases hnone
  · rw [h] at hsome
    have hpair := Prod.mk.inj hsome
    have hget' := SymbolTable.get?_intern table other
    rw [← hpair.2, ← Option.some.inj hpair.1] at hget'
    have hsame : other = name :=
      (SymbolTable.lookup_of_get? hget').symm.trans (SymbolTable.lookup_of_get? hget)
    have hlength := congrArg List.length (Utf8.encode_of_decode? hother)
    have hle := byteOrderMarkLength_le (Utf8.encode name)
    rw [hsame, List.length_drop] at hlength
    omega

end

/-- **A word's name is a word by itself, under the same symbol, if it is plain**, and not otherwise. -/
theorem scanWord_lookup {source : Bytes} {symbols table : SymbolTable} {body : Block}
    (h : scanSource source symbols = (.ok body, table)) {s : Symbol}
    (hs : s ∈ Finder.words.items body.items) :
    scanWord (Utf8.encode (table.lookup s)) table = (some s, table) ↔
      isPlainName (Utf8.encode (table.lookup s)) = true := by
  obtain ⟨hget, hname⟩ := scanSource_words h hs
  generalize table.lookup s = name at hget hname
  by_cases hmark : byteOrderMarkLength (Utf8.encode name) = 0
  · rw [scanWord_name hget hname hmark]
    cases isPlainName (Utf8.encode name) <;> simp
  · refine iff_of_false (scanWord_mark hget hmark) ?_
    simp [isPlainName, hmark]

/-- What is known of the result of a scan is known of its block. -/
theorem exists_scanned {α : Type} {f : Block → α} {source : Bytes} {x : α}
    (h : (scanSource source .initial).1.toOption.map f = some x) :
    ∃ body, scanSource source .initial = (.ok body, (scanSource source .initial).2) ∧ f body = x := by
  cases hscan : scanSource source .initial with
  | mk result table =>
    rw [hscan] at h
    cases result with
    | error f => cases h
    | ok body => exact ⟨body, rfl, Option.some.inj h⟩

/-- In `x a>b<c>` two words are in front of the tag, of which the first is a word by itself. -/
theorem scanWord_lookup_tag : ∃ body table s s',
    scanSource [0x78, 0x20, 0x61, 0x3E, 0x62, 0x3C, 0x63, 0x3E] .initial = (.ok body, table) ∧
    Finder.words.items body.items = [s, s'] ∧
    scanWord [0x78] table = (some s, table) ∧ scanWord [0x61, 0x3E, 0x62] table ≠ (some s', table) := by
  obtain ⟨hrun, hnames⟩ :
      (scanSource [0x78, 0x20, 0x61, 0x3E, 0x62, 0x3C, 0x63, 0x3E] .initial).1.toOption.map
        (fun body => Finder.words.items body.items) = some [⟨8, 0⟩, ⟨5, 0⟩] ∧
      [⟨8, 0⟩, ⟨5, 0⟩].map (scanSource [0x78, 0x20, 0x61, 0x3E, 0x62, 0x3C, 0x63, 0x3E]
        .initial).2.lookup = ["x", "a>b"] := by decide +kernel
  obtain ⟨body, h, hwords⟩ := exists_scanned hrun
  generalize (scanSource [0x78, 0x20, 0x61, 0x3E, 0x62, 0x3C, 0x63, 0x3E] .initial).2 = table at hnames h
  obtain ⟨hx, hab⟩ : table.lookup ⟨8, 0⟩ = "x" ∧ table.lookup ⟨5, 0⟩ = "a>b" := by simpa using hnames
  have hfirst := scanWord_lookup h (s := ⟨8, 0⟩) (by rw [hwords]; simp)
  have hsecond := scanWord_lookup h (s := ⟨5, 0⟩) (by rw [hwords]; simp)
  rw [hx] at hfirst
  rw [hab] at hsecond
  exact ⟨body, table, ⟨8, 0⟩, ⟨5, 0⟩, h, hwords, hfirst.2 (by decide),
    mt hsecond.1 (by decide : isPlainName (Utf8.encode "a>b") ≠ true)⟩

/-- The name of the word in `a>b<c>` is no word by itself. -/
theorem tag_hides_greater : ∃ body table s,
    scanSource [0x61, 0x3E, 0x62, 0x3C, 0x63, 0x3E] .initial = (.ok body, table) ∧
    s ∈ Finder.words.items body.items ∧ Utf8.encode (table.lookup s) = [0x61, 0x3E, 0x62] ∧
    (scanWord [0x61, 0x3E, 0x62] table).1 = none := by
  obtain ⟨hrun, hname, hscan⟩ :
      (scanSource [0x61, 0x3E, 0x62, 0x3C, 0x63, 0x3E] .initial).1.toOption.map
        (fun body => Finder.words.items body.items) = some [⟨5, 0⟩] ∧
      (scanSource [0x61, 0x3E, 0x62, 0x3C, 0x63, 0x3E] .initial).2.lookup ⟨5, 0⟩ = "a>b" ∧
      (scanWord [0x61, 0x3E, 0x62]
        (scanSource [0x61, 0x3E, 0x62, 0x3C, 0x63, 0x3E] .initial).2).1 = none := by decide +kernel
  obtain ⟨body, h, hwords⟩ := exists_scanned hrun
  refine ⟨body, _, ⟨5, 0⟩, h, ?_, ?_, hscan⟩
  · rw [hwords]
    exact List.mem_singleton_self _
  · rw [hname]
    rfl

end RebolScan
