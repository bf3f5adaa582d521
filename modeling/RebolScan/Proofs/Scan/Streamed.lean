import RebolScan.Proofs.Scan.Tiling
import RebolScan.Proofs.Scan.Whole
import RebolScan.Proofs.Token.Stream

/-!
# The scanner refines the stream of tokens

A tokenizer takes the tokens of a text one by one; the scanner goes over the same text level by
level, looks at some tokens twice and has its own ideas about paths. **Where no slash stands and no
construction opens, the two are in step** (`scanSource_pieces`): the tree of a strict scan, written
down with a bracket at either end of a block or paren, has the marks and the ranges of the tokens,
one for one, line breaks aside.

What is taken from one place to another is `Streamed`, which says nothing of levels and closes under
appending. A level keeps it between its rounds (`turn_streamed`), so the levels of a tree come to
one flat run of tokens however deep they nest (`streamer_inside`). At the end of the source that run
is what the tokenizer yields (`Yields.of_streamed`).
-/

set_option autoImplicit false

namespace RebolScan

open Ascii Scan

/-! ## Tokens from one place to another -/

/-- The token that is next at the place `a` of `source`. -/
def tokenAt (source : Bytes) (a : Nat) : Token :=
  let start := a + ((source.drop a).takeWhile isSpace).length
  let l := Lexeme.ofFront (source.drop start)
  ⟨l.kind, l.malformed, start, start + l.length⟩

/-- The tokens from `a` to `e` are well-formed and make the pieces `ps`, line breaks aside. -/
inductive Streamed (source : Bytes) : Nat → List Piece → Nat → Prop
  | nil (a : Nat) : Streamed source a [] a
  | line {a e : Nat} {ps : List Piece} (hw : (tokenAt source a).malformed = false)
      (hk : (tokenAt source a).kind = .line) (h : Streamed source (tokenAt source a).stop ps e) :
      Streamed source a ps e
  | piece {a e : Nat} {ps : List Piece} {p : Piece} (hw : (tokenAt source a).malformed = false)
      (hp : (tokenAt source a).piece? = some p) (h : Streamed source (tokenAt source a).stop ps e) :
      Streamed source a (p :: ps) e

variable {source : Bytes}

theorem Streamed.append {a m e : Nat} {ps qs : List Piece} (h : Streamed source a ps m)
    (h' : Streamed source m qs e) : Streamed source a (ps ++ qs) e := by
  induction h with
  | nil => exact h'
  | line hw hk _ ih => exact .line hw hk (ih h')
  | piece hw hp _ ih => exact .piece hw hp (ih h')

/-- One more piece behind. -/
theorem Streamed.snoc {a m : Nat} {ps : List Piece} {p : Piece} (h : Streamed source a ps m)
    (hw : (tokenAt source m).malformed = false) (hp : (tokenAt source m).piece? = some p) :
    Streamed source a (ps ++ [p]) (tokenAt source m).stop :=
  h.append (.piece hw hp (.nil _))

/-- A piece is no line break and not the end. -/
theorem Token.kind_of_piece? {t : Token} {p : Piece} (h : t.piece? = some p) :
    t.kind ≠ .line ∧ t.kind ≠ .endOfScript := by
  constructor
  all_goals
    intro hk
    rw [piece?, hk] at h
    cases h

/-! ## What a tokenizer yields -/

namespace Tokenizer

variable {t u : Tokenizer} {taken : List (Token × Tokenizer)}

theorem scan_eq_tokenAt (h : t.cursor.In source) : t.scan.1 = tokenAt source t.cursor.start := by
  have hskip : t.cursor.skipSpace.rest = source.drop t.cursor.skipSpace.start := h.skipSpace.rest
  have hstart : t.cursor.skipSpace.start =
      t.cursor.start + ((source.drop t.cursor.start).takeWhile isSpace).length := by
    rw [← h.rest]
    rfl
  rw [hstart] at hskip
  show Token.mk (Lexeme.ofFront t.cursor.skipSpace.rest).kind
    (Lexeme.ofFront t.cursor.skipSpace.rest).malformed t.cursor.skipSpace.start
    (t.cursor.skipSpace.start + (Lexeme.ofFront t.cursor.skipSpace.rest).length) = _
  rw [hskip, hstart]
  rfl

/-- One token that is yielded is the token at its place, and the rest is yielded behind it. -/
theorem Yields.step (h : t.Yields taken u) (ht : t.cursor.In source)
    (hk : (tokenAt source t.cursor.start).kind ≠ .endOfScript) :
    ∃ (t' : Tokenizer) (rest : List (Token × Tokenizer)),
      taken = (tokenAt source t.cursor.start, t') :: rest ∧ t'.cursor.In source ∧
        t'.cursor.start = (tokenAt source t.cursor.start).stop ∧ t'.Yields rest u := by
  have hscan := scan_eq_tokenAt ht
  cases h with
  | done hend =>
    rw [hscan] at hend
    exact absurd hend hk
  | token hkind hnext hrest =>
    cases seen ht with
    | atEnd hend => exact absurd hend hkind
    | token _ hblank hpos hlen hin hstart =>
      refine ⟨_, _, by rw [hscan], hin, ?_, hrest⟩
      rw [hstart, hscan]

/-- **What is yielded from one place to the end**: the pieces there, with line breaks between. -/
theorem Yields.of_streamed {a e : Nat} {ps : List Piece} (h : Streamed source a ps e)
    (hend : (tokenAt source e).kind = .endOfScript) (ht : t.cursor.In source)
    (ha : t.cursor.start = a) (hy : t.Yields taken u) :
    ((taken.map (·.1)).filter (·.kind != .line)).map Token.piece? = ps.map some ∧
      ∀ token ∈ taken.map (·.1), token.malformed = false := by
  induction h generalizing t taken with
  | nil a =>
    subst ha
    cases hy with
    | done => exact ⟨rfl, fun token h => absurd h List.not_mem_nil⟩
    | token hkind =>
      rw [scan_eq_tokenAt ht] at hkind
      exact absurd hend hkind
  | @line a e ps hw hk _ ih =>
    subst ha
    obtain ⟨t', rest, rfl, ht', hstart, hrest⟩ := hy.step ht (by rw [hk]; exact TokenKind.noConfusion)
    obtain ⟨hpieces, hwell⟩ := ih hend ht' hstart hrest
    constructor
    · rw [List.map_cons, List.filter_cons_of_neg (by simp [hk])]
      exact hpieces
    · rw [List.map_cons, List.forall_mem_cons]
      exact ⟨hw, hwell⟩
  | @piece a e ps p hw hp _ ih =>
    subst ha
    obtain ⟨hline, hscript⟩ := Token.kind_of_piece? hp
    obtain ⟨t', rest, rfl, ht', hstart, hrest⟩ := hy.step ht hscript
    obtain ⟨hpieces, hwell⟩ := ih hend ht' hstart hrest
    constructor
    · rw [List.map_cons, List.filter_cons_of_pos (by simpa using hline), List.map_cons, List.map_cons,
        hp, hpieces]
    · rw [List.map_cons, List.forall_mem_cons]
      exact ⟨hw, hwell⟩

end Tokenizer

/-! ## Rounds -/

namespace Scan

open Session

variable {setup : Setup} {nested : Nested} {s t : Session}

/-- The token that a round looks at is the one at its place. -/
theorem token_eq_tokenAt (h : s.At source) : s.token = tokenAt source s.cursor.start := by
  have hrest := h.looked.rest
  have hstart : s.looked.cursor.start =
      s.cursor.start + ((source.drop s.cursor.start).takeWhile isSpace).length := by
    rw [← h.rest]
    rfl
  show Token.mk (Lexeme.ofFront s.looked.cursor.rest).kind
    (Lexeme.ofFront s.looked.cursor.rest).malformed s.looked.cursor.start
    (s.looked.cursor.start + (Lexeme.ofFront s.looked.cursor.rest).length) = _
  rw [hrest, hstart]
  rfl

/-- A closer is a token of its own. -/
theorem token_of_closing {b : Bracket} (h : byteAt s.looked.cursor.rest 0 = b.closeByte) :
    s.token = ⟨b.closeKind, false, s.looked.cursor.start, s.looked.cursor.start + 1⟩ := by
  show Token.mk (Lexeme.ofFront s.looked.cursor.rest).kind
    (Lexeme.ofFront s.looked.cursor.rest).malformed s.looked.cursor.start
    (s.looked.cursor.start + (Lexeme.ofFront s.looked.cursor.rest).length) = _
  rw [Lexeme.ofFront_closing h]
  rfl

/-- A token that is a piece by its kind and length lies where the round looked. -/
theorem piece_of_mark (h : s.At source) {mark : Mark}
    (hm : (Lexeme.ofFront s.looked.cursor.rest).kind.mark?
      (Lexeme.ofFront s.looked.cursor.rest).length = some mark) :
    (tokenAt source s.cursor.start).piece? = some ⟨mark, ⟨s.looked.cursor.start,
      s.looked.cursor.start + (Lexeme.ofFront s.looked.cursor.rest).length⟩⟩ := by
  have hlength : s.token.length = (Lexeme.ofFront s.looked.cursor.rest).length :=
    Nat.add_sub_cancel_left _ _
  rw [← token_eq_tokenAt h, Token.piece?, hlength]
  exact congrArg (Option.map _) hm

/-- An element that stands for a value by itself comes to one of its type, and is all that is read. -/
theorem CarriedOut.of_typeName {level : Level} {text : Bytes} {start taken : Nat} {e : Element}
    {type : String} {out : Outcome} (hread : Element.Reads level text ⟨e, taken⟩)
    (htype : e.typeName? = some type) (h : CarriedOut setup nested start s e out t) :
    t.cursor = s.cursor ∧ ∃ v, out = .value v ∧ v.isScalar = true ∧ v.typeName = type := by
  cases h with
  | value v => exact ⟨rfl, v, rfl, hread.isScalar_of_value rfl, Option.some.inj htype⟩
  | word kind name =>
    refine ⟨rfl, _, rfl, rfl, ?_⟩
    cases kind <;> exact Option.some.inj htype
  | issue name => exact ⟨rfl, _, rfl, rfl, Option.some.inj htype⟩
  | _ => cases htype

/-- The levels between brackets take the tokens up to the closer, and the closer. -/
def Streamer (source : Bytes) (nested : Nested) : Prop :=
  ∀ {b : Bracket} {start : Nat} {s t : Session} {body : Block}, s.At source →
    nested (.inside b) start s = .ok body t →
      t.At source ∧ Streamed source s.cursor.start
        (piecesOfItems body.items ++ [⟨.closes b, ⟨t.cursor.start - 1, t.cursor.start⟩⟩]) t.cursor.start

/-- Between two rounds of a level that starts at `a`, the tokens up to here make what it has
collected. -/
structure Streaming (source : Bytes) (a : Nat) (c : Collected) (s : Session) : Prop where
  place : s.At source
  pieces : Streamed source a (piecesOfItems c.items.reverse) s.cursor.start

/-- How a round left a level: it goes on, the source has ended, or the closer of the level has been
consumed. -/
inductive StreamingTurn (source : Bytes) (level : Level) (a : Nat) :
    Collected → Bool → Session → Prop
  | goesOn {c' : Collected} {t : Session} (h : Streaming source a c' t) :
      StreamingTurn source level a c' true t
  | atEnd {c' : Collected} {t : Session} {e : Nat} (hl : level = .top)
      (h : Streamed source a (piecesOfItems c'.items.reverse) e)
      (hend : (tokenAt source e).kind = .endOfScript) : StreamingTurn source level a c' false t
  | closed {c' : Collected} {t : Session} (b : Bracket) (hl : level = .inside b) (ht : t.At source)
      (h : Streamed source a (piecesOfItems c'.items.reverse ++
        [⟨.closes b, ⟨t.cursor.start - 1, t.cursor.start⟩⟩]) t.cursor.start) :
      StreamingTurn source level a c' false t

theorem Streaming.push {a : Nat} {c : Collected} {v : Value} {span : Span}
    (hc : Streaming source a c s) (ht : t.At source)
    (hv : Streamed source s.cursor.start (v.pieces span) t.cursor.start) :
    Streaming source a (c.push v span) t := by
  refine ⟨ht, ?_⟩
  show Streamed source a (piecesOfItems (_ :: c.items).reverse) t.cursor.start
  rw [List.reverse_cons, piecesOfItems_snoc]
  exact hc.pieces.append hv

/-- The pieces of what an element over `span` came to. -/
def Outcome.pieces (span : Span) : Outcome → List Piece
  | .value v => v.pieces span
  | _ => []

section

variable {level : Level} (hl : level ≠ .path) (hflat : Flat source)

include hl hflat

/-- **What an element comes to are the tokens that it took.** -/
theorem Performed.streamed (hn : Streamer source nested) {out : Outcome} (hs : s.At source)
    (h : Performed setup nested (s.reading level) s.looked.cursor.start s.looked out t) :
    t.At source ∧ out ≠ .slot ∧ Streamed source s.cursor.start
      (out.pieces ⟨s.looked.cursor.start, t.cursor.start⟩) t.cursor.start := by
  have htoken := token_eq_tokenAt hs
  have hread := s.reading_reads level
  have hplace := hs.looked
  have hrest : Flat s.looked.cursor.rest := by
    rw [hplace.rest]
    exact hflat.drop _
  rcases Element.of_whole hl hrest with ⟨kind, length, hinvalid⟩ | ⟨hw, hwhole⟩
  · exact absurd hinvalid (h.ne_invalid kind length)
  have hw : (tokenAt source s.cursor.start).malformed = false := by rwa [← htoken]
  have hstop : (tokenAt source s.cursor.start).stop =
      s.looked.cursor.start + (Lexeme.ofFront s.looked.cursor.rest).length := by
    rw [← htoken]
    rfl
  have hpiece {mark : Mark} (hm : (Lexeme.ofFront s.looked.cursor.rest).kind.mark?
      (Lexeme.ofFront s.looked.cursor.rest).length = some mark) :=
    hstop ▸ Streamed.piece hw (piece_of_mark hs hm) (.nil _)
  have hwhole : Element.Whole (Lexeme.ofFront s.looked.cursor.rest) (s.reading level) := hwhole
  generalize s.reading level = r at h hread hwhole
  cases h with
  | head he => exact absurd he (hwhole.ne_pathHead _)
  | consumed hcarried =>
    have hu := hplace.advance (hcarried.taken_bounds hread).2
    cases hwhole with
    | endOfInput => cases hcarried
    | closer => cases hcarried
    | line hline hk =>
      have hk : (tokenAt source s.cursor.start).kind = .line := by rwa [← htoken]
      have hnil := Streamed.line hw hk (.nil _)
      rw [hstop] at hnil
      rcases hline with rfl | rfl
      · cases hcarried
        exact ⟨⟨hu.1, hu.2, hu.3⟩, Outcome.noConfusion, hnil⟩
      · cases hcarried
        exact ⟨hu, Outcome.noConfusion, hnil⟩
    | opener b hm =>
      have hone : (Lexeme.ofFront s.looked.cursor.rest).length = 1 := (hread.of_opener rfl).2
      have hopener := hpiece hm
      rw [hone] at hopener
      cases hcarried with
      | opener _ hbody =>
        obtain ⟨ht, hinner⟩ := hn hu hbody
        refine ⟨ht, Outcome.noConfusion, ?_⟩
        rw [Outcome.pieces, Value.pieces_block]
        rw [hone] at hinner
        exact hopener.append hinner
    | @leaf e type htype hm =>
      obtain ⟨hcursor, v, rfl, hv, ht⟩ := hcarried.of_typeName hread htype
      refine ⟨hu.of_cursor hcursor, Outcome.noConfusion, ?_⟩
      rw [hcursor, Outcome.pieces, Value.pieces_of_isScalar hv, ht]
      exact hpiece hm

section

variable (hn : Streamer source nested)

include hn

theorem item_streamed (hstops : setup.options.stopsAfterValue = false) {a : Nat}
    {c c' : Collected} {goesOn : Bool} {out : Outcome} {u : Session} (hc : Streaming source a c s)
    (hperform : Performed setup nested (s.reading level) s.looked.cursor.start s.looked out u)
    (hsettle : Settled setup level s.looked.cursor.start c u (.ok out) c' goesOn t) :
    goesOn = true ∧ Streaming source a c' t := by
  obtain ⟨hu, hslot, hpieces⟩ := hperform.streamed hl hflat hn hc.place
  have hsilent (hnil : out.pieces ⟨s.looked.cursor.start, u.cursor.start⟩ = []) :
      Streamed source a (piecesOfItems c.items.reverse) u.cursor.start := by
    rw [hnil] at hpieces
    simpa using hc.pieces.append hpieces
  cases hsettle with
  | lineBreak => exact ⟨rfl, hu, hsilent rfl⟩
  | comment => exact ⟨rfl, hu, hsilent rfl⟩
  | slot => exact absurd rfl hslot
  | value v h =>
    obtain ⟨rfl, rfl, rfl⟩ := afterItem_goesOn hstops hl h
    exact ⟨rfl, hc.push hu hpieces⟩

/-- **A round of a strict scan takes the tokens that it makes its items of.** -/
theorem turn_streamed (hstrict : setup.options.relaxed = false)
    (hstops : setup.options.stopsAfterValue = false) {opened : Site} {a : Nat}
    {c c' : Collected} {goesOn : Bool} (hc : Streaming source a c s)
    (h : turn setup nested level opened c s = .ok (c', goesOn) t) :
    StreamingTurn source level a c' goesOn t := by
  have hread := s.reading_reads level
  have hlooked := hc.place.looked
  have htoken := token_eq_tokenAt hc.place
  cases turn_strict hstrict h with
  | atEnd he htop =>
    refine .atEnd (htop.resolve_right hl) hc.pieces ?_
    rw [← htoken, token, hread.of_endOfInput he]
    rfl
  | left b he hpath => exact absurd hpath hl
  | closed b he hb =>
    have hclose := hread.of_closer he
    have hlt : 1 ≤ s.looked.cursor.rest.length :=
      lt_length_of_byteAt (by rw [hclose]; cases b <;> decide)
    rw [token_of_closing hclose] at htoken
    have hpiece : (tokenAt source s.cursor.start).piece? =
        some ⟨.closes b, ⟨s.looked.cursor.start, s.looked.cursor.start + 1⟩⟩ := by
      rw [← htoken]
      cases b <;> rfl
    have hclosed := hc.pieces.snoc (by rw [← htoken]) hpiece
    rw [← htoken] at hclosed
    exact .closed b hb (hlooked.advance hlt) hclosed
  | item out u _ hperform hsettle =>
    obtain ⟨rfl, hnext⟩ := item_streamed hl hflat hn hstops hc hperform hsettle
    exact .goesOn hnext

end

end

/-! ## Levels -/

section

variable (hflat : Flat source) (hstrict : setup.options.relaxed = false)
  (hstops : setup.options.stopsAfterValue = false)

include hflat hstrict hstops

/-- Brackets hold the tokens between them, however deep they nest. -/
theorem streamer_inside (room : Nat) : Streamer source (inside setup (source.length + 1) room) := by
  induction room with
  | zero =>
    intro b start s t body hs h
    cases h
  | succ room ih =>
    intro b start s t body hs h
    have hl : Level.inside b ≠ .path := Level.noConfusion
    refine level_induct (P := Streaming source s.cursor.start) (Q := fun body t => t.At source ∧
        Streamed source s.cursor.start (piecesOfItems body.items ++
          [⟨.closes b, ⟨t.cursor.start - 1, t.cursor.start⟩⟩]) t.cursor.start)
      hs h ⟨hs, .nil _⟩ ?_ ?_
    · intro opened c u c' v hu hturn
      cases turn_streamed hl hflat ih hstrict hstops hu hturn with
      | goesOn h => exact h
    · intro opened c u c' v hu hturn
      cases turn_streamed hl hflat ih hstrict hstops hu hturn with
      | atEnd htop => cases htop
      | closed b' hb ht h =>
        cases hb
        exact ⟨ht, h⟩

end

end Scan

/-- The tokens of a source on which a strict scan succeeds make the pieces of its values. -/
theorem streamed_of_scanSource {symbols table : SymbolTable} {block : Block} (hflat : Flat source)
    (h : scanSource source symbols = (.ok block, table)) :
    ∃ e, Streamed source (byteOrderMarkLength source) (piecesOfItems block.items) e ∧
      (tokenAt source e).kind = .endOfScript := by
  obtain ⟨s, hs, -⟩ := scanSource_eq_ok.1 h
  have hplace := Session.at_start source symbols
  have hn : Streamer source (inside ⟨.standard, .standard⟩ (source.length + 1)
      Options.standard.maxDepth) := streamer_inside hflat rfl rfl _
  refine level_induct (P := Streaming source (byteOrderMarkLength source)) (Q := fun block _ =>
      ∃ e, Streamed source (byteOrderMarkLength source) (piecesOfItems block.items) e ∧
        (tokenAt source e).kind = .endOfScript)
    hplace hs ⟨hplace, .nil _⟩ ?_ ?_
  · intro opened c u c' v hu hturn
    cases turn_streamed Level.noConfusion hflat hn rfl rfl hu hturn with
    | goesOn h => exact h
  · intro opened c u c' v hu hturn
    cases turn_streamed Level.noConfusion hflat hn rfl rfl hu hturn with
    | atEnd _ h hend => exact ⟨_, h, hend⟩
    | closed b hl => cases hl

/-- **The scanner refines the stream of tokens.** Where no slash stands and no construction opens, a
strict scan that succeeds makes of a source what its tokens say one for one: written down with an
opener, the contents and a closer for every block and paren and one leaf for every other value, the
tree has the kinds and the ranges of the tokens that are taken one by one from the same source, line
breaks aside, and none of them is malformed. -/
theorem scanSource_pieces {symbols table : SymbolTable} {block : Block}
    (hslash : slash ∉ source) (hconstruct : ¬[pound, bracketOpen] <:+: source)
    (h : scanSource source symbols = (.ok block, table)) :
    let taken := (Tokenizer.tokens source).1.map (·.1)
    (taken.filter (·.kind != .line)).map Token.piece? = (piecesOfItems block.items).map some ∧
      ∀ token ∈ taken, token.malformed = false := by
  obtain ⟨e, hstreamed, hend⟩ := streamed_of_scanSource ⟨hslash, hconstruct⟩ h
  have hin : (Tokenizer.ofSource source).cursor.In source := Cursor.in_afterMark source
  have hfuel : (Tokenizer.ofSource source).cursor.rest.length < source.length + 1 := by
    have := hin.length
    omega
  obtain ⟨taken, u, htaken, hyields⟩ := Tokenizer.tokensFrom_yields [] hin hfuel
  have htokens : Tokenizer.tokens source = (taken, u) := htaken
  rw [htokens]
  exact hyields.of_streamed hstreamed hend hin rfl

/-- `[#`, a line break, `(a:)];`: the line break and the comment make no piece. -/
theorem scanSource_pieces_nested :
    ∃ source block table, source = [0x5B, 0x23, 0x0A, 0x28, 0x61, 0x3A, 0x29, 0x5D, 0x3B] ∧
      slash ∉ source ∧ ¬[pound, bracketOpen] <:+: source ∧
      scanSource source .initial = (.ok block, table) ∧
      piecesOfItems block.items = [⟨.opens .block, ⟨0, 1⟩⟩, ⟨.leaf "none", ⟨1, 2⟩⟩,
        ⟨.opens .paren, ⟨3, 4⟩⟩, ⟨.leaf "set-word", ⟨4, 6⟩⟩, ⟨.closes .paren, ⟨6, 7⟩⟩,
        ⟨.closes .block, ⟨7, 8⟩⟩] ∧
      (((Tokenizer.tokens source).1.map (·.1)).filter (·.kind != .line)).map Token.piece? =
        (piecesOfItems block.items).map some ∧
      ∀ token ∈ (Tokenizer.tokens source).1.map (·.1), token.malformed = false := by
  have hslash : slash ∉ ([0x5B, 0x23, 0x0A, 0x28, 0x61, 0x3A, 0x29, 0x5D, 0x3B] : Bytes) := by decide
  have hconstruct : ¬[pound, bracketOpen] <:+:
      ([0x5B, 0x23, 0x0A, 0x28, 0x61, 0x3A, 0x29, 0x5D, 0x3B] : Bytes) := by decide
  have hpieces : ((scanSource [0x5B, 0x23, 0x0A, 0x28, 0x61, 0x3A, 0x29, 0x5D, 0x3B]
      .initial).1.toOption.map fun block => piecesOfItems block.items) =
        some [⟨.opens .block, ⟨0, 1⟩⟩, ⟨.leaf "none", ⟨1, 2⟩⟩, ⟨.opens .paren, ⟨3, 4⟩⟩,
          ⟨.leaf "set-word", ⟨4, 6⟩⟩, ⟨.closes .paren, ⟨6, 7⟩⟩, ⟨.closes .block, ⟨7, 8⟩⟩] := by
    decide +kernel
  cases h : scanSource [0x5B, 0x23, 0x0A, 0x28, 0x61, 0x3A, 0x29, 0x5D, 0x3B] .initial with
  | mk result table =>
    rw [h] at hpieces
    cases result with
    | error failure => cases hpieces
    | ok block =>
      exact ⟨_, block, table, rfl, hslash, hconstruct, h, Option.some.inj hpieces,
        scanSource_pieces hslash hconstruct h⟩

end RebolScan
