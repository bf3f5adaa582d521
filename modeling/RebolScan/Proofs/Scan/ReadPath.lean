import RebolScan.Proofs.Scan.ReadBack

/-!
# Paths that were written are read back

A path is read twice at its head: a level sees a word with a slash behind it and opens a level of
segments at the same place, and the first segment is the word again. The mark in front of a get-path
or lit-path makes that first word a get-word or lit-word, which is a plain word again when the path
is made of its segments; a colon behind them makes a set-path. A path may also start with its slash,
and has an empty segment in front then.
-/

set_option autoImplicit false

namespace RebolScan

open Ascii

/-- The kind of token that starts a path of the kind. -/
def BlockKind.headToken : BlockKind → TokenKind
  | .getPath => .getWord
  | .litPath => .litWord
  | _ => .word

/-- The form that the first word of a path has when it is read. The mark in front of it is the
path's only then. -/
def BlockKind.headWord : BlockKind → WordKind
  | .getPath => .getWord
  | .litPath => .litWord
  | _ => .word

namespace Scan

open Session

section

variable {t : SymbolTable} {d fuel room start : Nat} {level : Level} {s u : Session}
  {rest tail : Bytes}

/-! ## What the segments make -/

/-- The byte that a path looks at behind its segments. -/
theorem byteFrom_stop (h : s.cursor.stop = s.cursor.start) :
    byteFrom s.cursor.stop s = .ok (byteAt s.cursor.rest 0) s := by
  show EStateM.Result.ok (byteAt s.cursor.rest (s.cursor.stop - s.cursor.start)) s = _
  rw [h, Nat.sub_self]

/-- Behind the segments of a path, a colon makes it a set-path. -/
theorem joinPath_behind (head : TokenKind) (start : Nat) {kind : BlockKind}
    (hk : kind = .path ∨ kind = .setPath) (hhead : head ≠ .litWord) (first : Item)
    (hfirst : first.value = .none ∨ ∃ a, first.value = .word .word a) (more : List Item)
    (tailLine : Bool) (hsettled : s.cursor.stop = s.cursor.start)
    (hs : s.cursor.rest = kind.behind ++ rest) (hcolon : byteAt rest 0 ≠ colon) :
    ∃ u, joinPath head start ⟨first :: more, tailLine⟩ s =
        .ok (.block kind ⟨first :: more, tailLine⟩) u ∧ s.Left u rest := by
  obtain ⟨v, newLine, span⟩ := first
  rw [joinPath, bind_of_ok (x := cursor) rfl, bind_of_ok (byteFrom_stop hsettled),
    if_neg (by simpa using hhead)]
  rcases hk with rfl | rfl
  · have hbyte : (byteAt s.cursor.rest 0 == colon) = false := by
      rw [hs]
      exact beq_false_of_ne hcolon
    refine ⟨s, ?_, hs, hsettled, .refl _⟩
    rw [hbyte]
    rcases hfirst with rfl | ⟨a, rfl⟩ <;> rfl
  · have hbyte : (byteAt s.cursor.rest 0 == colon) = true := by
      rw [hs]
      rfl
    have hone : s.cursor.stop + 1 - s.cursor.start = 1 := by omega
    have hleft : s.Left { s with cursor := s.cursor.advance (s.cursor.stop + 1 - s.cursor.start) }
        rest := by
      rw [hone]
      exact left_advance (w := [colon]) hs (.refl _)
    refine ⟨_, ?_, hleft⟩
    rw [hbyte]
    rcases hfirst with rfl | ⟨a, rfl⟩ <;> rfl

/-- The segments of a path make the path, and a mark in front of its first word becomes its own. -/
theorem joinPath_read (start : Nat) {kind : BlockKind} (hk : kind.isPath = true) (first : Item)
    {a : Symbol} (hfirst : first.value = .word kind.headWord a) (more : List Item) (tailLine : Bool)
    (hsettled : s.cursor.stop = s.cursor.start) (hs : s.cursor.rest = kind.behind ++ rest)
    (hcolon : byteAt rest 0 ≠ colon) :
    ∃ u, joinPath kind.headToken start ⟨first :: more, tailLine⟩ s =
        .ok (.block kind ⟨{ first with value := .word .word a } :: more, tailLine⟩) u ∧
      s.Left u rest := by
  have hbehind (hkind : kind = .path ∨ kind = .setPath) (hhead : kind.headToken ≠ .litWord)
      (hword : kind.headWord = .word) :
      ∃ u, joinPath kind.headToken start ⟨first :: more, tailLine⟩ s =
          .ok (.block kind ⟨{ first with value := .word .word a } :: more, tailLine⟩) u ∧
        s.Left u rest := by
    rw [hword] at hfirst
    rw [← hfirst]
    exact joinPath_behind _ start hkind hhead first (.inr ⟨a, hfirst⟩) more tailLine hsettled hs
      hcolon
  obtain ⟨v, newLine, span⟩ := first
  cases hfirst
  cases kind with
  | block | paren => cases hk
  | path => exact hbehind (.inl rfl) TokenKind.noConfusion rfl
  | setPath => exact hbehind (.inr rfl) TokenKind.noConfusion rfl
  | getPath =>
    have hbyte : (byteAt s.cursor.rest 0 == colon) = false := by
      rw [hs]
      exact beq_false_of_ne hcolon
    refine ⟨s, ?_, hs, hsettled, .refl _⟩
    rw [joinPath, bind_of_ok (x := cursor) rfl, bind_of_ok (byteFrom_stop hsettled), hbyte]
    rfl
  | litPath =>
    refine ⟨s, ?_, hs, hsettled, .refl _⟩
    rw [joinPath, bind_of_ok (x := cursor) rfl, bind_of_ok (byteFrom_stop hsettled)]
    rfl

theorem endsSegment_behind (kind : BlockKind) (hrest : Terminates rest) :
    EndsSegment (kind.behind ++ rest) ∧ byteAt (kind.behind ++ rest) 0 ≠ slash := by
  cases kind with
  | setPath =>
    refine ⟨.colon hrest, ?_⟩
    show byteAt (colon :: rest) 0 ≠ slash
    rw [byteAt_cons_zero]
    decide
  | _ => exact ⟨.delimiter hrest.1, hrest.2⟩

theorem ne_colon_of_terminates (h : Terminates rest) : byteAt rest 0 ≠ colon := by
  intro hcolon
  have hdelim := h.1
  rw [hcolon] at hdelim
  cases hdelim

/-- A path behind whose first segment others follow. -/
theorem path_level {v : Value} {span : Span} {more : List Item}
    (h : ∀ item ∈ more, Readable t d item.value) (hmore : more ≠ [])
    (hsegment : ∀ item ∈ more, item.value.isSegment = true)
    (htail : EndsSegment tail) (hslash : byteAt tail 0 ≠ slash) (hready : Ready t d fuel room s)
    (hturn : turn standardSetup (inside standardSetup fuel room) .path
      ⟨s.cursor.line, s.cursor.lineStart⟩ .empty s = .ok (Collected.empty.push v span, true) u)
    (hleft : s.Left u (spellItems t slash more ++ tail)) (hlt : s.Shorter u) :
    ∃ read tailLine u', Scan.level standardSetup fuel room .path s =
        .ok ⟨⟨v, false, span⟩ :: read, tailLine⟩ u' ∧
      read.map Item.unplaced = more.map Item.unplaced ∧ s.Left u' tail := by
  have hle : (spellItems t slash more ++ tail).length ≤ s.cursor.rest.length := by
    rw [← hleft.rest]
    exact Nat.le_of_lt hlt
  obtain ⟨out, u', ⟨read, hitems, hread⟩, hleft', hrun⟩ := segments_read h
    ⟨s.cursor.line, s.cursor.lineStart⟩ (Collected.empty.push v span) hmore hsegment htail hslash
    (hready.left hleft hle) hleft.rest
  refine ⟨read, out.newLine, u', ?_, hread, hleft.trans hleft'⟩
  rw [level_of_finishes (.step hturn hlt hrun) hready.fuel]
  exact congrArg (fun items => EStateM.Result.ok (Series.mk items out.newLine) u') hitems

/-! ## Paths -/

section

variable {kind : BlockKind} {a : Symbol} (hk : kind.isPath = true) (ha : t.Names a)

include hk

theorem isSegment_of_isPath (body : Block) : (Value.block kind body).isSegment = false := by
  cases kind with
  | block | paren => cases hk
  | _ => rfl

include ha

theorem of_pathHead (hl : level ≠ .path) (hs : byteAt rest 0 = slash) :
    Element.of level (kind.front ++ Utf8.encode (t.lookup a) ++ rest)
      (Lexeme.ofFront (kind.front ++ Utf8.encode (t.lookup a) ++ rest)) =
      ⟨.pathHead kind.headToken, 0⟩ := by
  cases kind with
  | block | paren => cases hk
  | path | setPath => exact Element.of_head_word ha.isName hl hs
  | getPath => exact Element.of_head_getWord ha.isName hl hs
  | litPath => exact Element.of_head_litWord ha.isName hl hs

theorem of_pathFirst (hs : byteAt rest 0 = slash) :
    Element.of .path (kind.front ++ Utf8.encode (t.lookup a) ++ rest)
      (Lexeme.ofFront (kind.front ++ Utf8.encode (t.lookup a) ++ rest)) =
      ⟨.word kind.headWord (t.lookup a), (kind.front ++ Utf8.encode (t.lookup a)).length⟩ := by
  have hd := Element.isDelimiter_of_slash hs
  cases kind with
  | block | paren => cases hk
  | path | setPath => exact Element.of_word ha.isName (.delimiter hd)
  | getPath => exact Element.of_getWord ha.isName hd (.inl rfl)
  | litPath => exact Element.of_litWord ha.isName hd (.inl rfl)

/-- **A path is read back** if its segments are. -/
theorem readable_path {first : Item} {more : List Item} (hfirst : first.value = .word .word a)
    (hmore : more ≠ []) (h : ∀ item ∈ more, Readable t d item.value)
    (hsegment : ∀ item ∈ more, item.value.isSegment = true) (tailLine : Bool) :
    Readable t (d + 1) (.block kind ⟨first :: more, tailLine⟩) := by
  have hwritten := Value.Spellable.path hk hfirst ha hmore hsegment
    (fun item hi => (h item hi).written) tailLine
  refine ⟨hwritten, ?_⟩
  intro level start fuel room s rest hready hf hseg hs
  have hl := ne_path_of_not_segment (isSegment_of_isPath hk _) hseg
  have hrest := hf.terminates hl
  obtain ⟨room, rfl, hinner⟩ := hready.inside
  obtain ⟨htail, hslash⟩ := endsSegment_behind kind hrest
  have hlooked := looked_rest_of_value hwritten hs
  have hname : first.value.spell t = Utf8.encode (t.lookup a) := by
    rw [hfirst, spell_word]
  have hs : s.cursor.rest = kind.front ++ Utf8.encode (t.lookup a) ++
      slash :: (spellItems t slash more ++ (kind.behind ++ rest)) := by
    rw [hs, spell_path hk (by rw [hfirst]; exact Value.noConfusion), spellItems_cons t _ _ hmore,
      hname]
    simp only [List.append_assoc, List.cons_append]
  -- The head takes nothing, so the level of the path starts where the path does.
  obtain ⟨u, hu, hleft⟩ := word_reads s.looked.cursor.start ha.knows hinner.looked
    (hlooked.trans hs) (of_pathFirst hk ha rfl)
  obtain ⟨span, u, hturn, hleft⟩ := turn_segment ⟨s.cursor.line, s.cursor.lineStart⟩ .empty hu hleft
    (segments_next h hmore hsegment (kind.behind ++ rest))
  have hlt : s.Shorter u := by
    show u.cursor.rest.length < s.cursor.rest.length
    rw [hleft.rest, hs]
    simp only [List.length_append, List.length_cons]
    omega
  obtain ⟨read, tailLine', u', hlevel, hread, hleft'⟩ := path_level h hmore hsegment htail hslash
    hinner hturn hleft.of_looked hlt
  obtain ⟨u'', hjoin, hleft''⟩ := joinPath_read start hk ⟨.word kind.headWord a, false, span⟩ rfl
    read tailLine' hleft'.settled hleft'.rest (ne_colon_of_terminates hrest)
  refine ⟨.block kind ⟨⟨.word .word a, false, span⟩ :: read, tailLine'⟩, u'', ?_, ?_,
    hleft'.trans hleft''⟩
  · rw [hs, of_pathHead hk ha hl rfl]
    exact perform_pathHead hlevel hjoin
  · rw [Value.unplaced_block, Value.unplaced_block, List.map_cons, List.map_cons, hread,
      Item.unplaced, Item.unplaced, hfirst]

end

/-- **A path that starts with a slash is read back** if its segments are. -/
theorem readable_slotPath {kind : BlockKind} {a : Symbol} (hk : kind = .path ∨ kind = .setPath)
    (ha : t.Names a) {slot first : Item} {more : List Item} (hslot : slot.value = .none)
    (hfirst : first.value = .word .word a) (hmore : more ≠ [])
    (h : ∀ item ∈ more, Readable t d item.value)
    (hsegment : ∀ item ∈ more, item.value.isSegment = true) (tailLine : Bool) :
    Readable t (d + 1) (.block kind ⟨slot :: first :: more, tailLine⟩) := by
  refine ⟨.slotPath hk hslot hfirst ha hmore hsegment (fun item hi => (h item hi).written) tailLine,
    ?_⟩
  intro level start fuel room s rest hready hf hseg hs
  have hpath : kind.isPath = true := by rcases hk with rfl | rfl <;> rfl
  have hl := ne_path_of_not_segment (isSegment_of_isPath hpath _) hseg
  have hrest := hf.terminates hl
  obtain ⟨room, rfl, hinner⟩ := hready.inside
  obtain ⟨htail, hend⟩ := endsSegment_behind kind hrest
  have hall : ∀ item ∈ first :: more, Readable t d item.value := by
    refine List.forall_mem_cons.2 ⟨?_, h⟩
    rw [hfirst]
    exact readable_word .word ha
  have hallSegments : ∀ item ∈ first :: more, item.value.isSegment = true := by
    refine List.forall_mem_cons.2 ⟨?_, hsegment⟩
    rw [hfirst]
    rfl
  have hname : first.value.spell t = Utf8.encode (t.lookup a) := by
    rw [hfirst, spell_word]
  -- The slash is the empty segment, and the rest is a path whose first word has no mark.
  have hwhole : s.cursor.rest = slash :: (spellItems t slash (first :: more) ++
      (kind.behind ++ rest)) := by
    rw [hs, spell_slotPath hk hslot (List.cons_ne_nil _ _), List.cons_append, List.append_assoc]
  have hs : s.cursor.rest = slash :: (Utf8.encode (t.lookup a) ++
      slash :: (spellItems t slash more ++ (kind.behind ++ rest))) := by
    rw [hwhole, spellItems_cons t _ _ hmore, hname]
    simp only [List.append_assoc, List.cons_append]
  have hlooked : s.looked.cursor.rest = s.cursor.rest := by
    refine (looked_of_not_space ?_).2
    rw [hs, byteAt_cons_zero]
    decide
  have hslash : s.reading .path = ⟨.slot, 1⟩ := by
    rw [Session.reading, hlooked, hs]
    exact Element.of_slot ha.isName rfl
  obtain ⟨span, u, hturn, hleft⟩ := turn_slot ⟨s.cursor.line, s.cursor.lineStart⟩ .empty
    (inside standardSetup fuel room) hslash (hlooked.trans hwhole)
  have hlt : s.Shorter u := by
    show u.cursor.rest.length < s.cursor.rest.length
    rw [hleft.rest, hwhole]
    exact Nat.lt_succ_self _
  obtain ⟨read, tailLine', u', hlevel, hread, hleft'⟩ := path_level hall
    (List.cons_ne_nil first more) hallSegments htail hend hinner hturn hleft.of_looked hlt
  obtain ⟨u'', hjoin, hleft''⟩ := joinPath_behind .refinement start hk TokenKind.noConfusion
    ⟨.none, false, span⟩ (.inl rfl) read tailLine' hleft'.settled hleft'.rest
    (ne_colon_of_terminates hrest)
  refine ⟨.block kind ⟨⟨.none, false, span⟩ :: read, tailLine'⟩, u'', ?_, ?_,
    hleft'.trans hleft''⟩
  · rw [hs, Element.of_head_refinement ha.isName hl rfl]
    exact perform_pathHead hlevel hjoin
  · rw [Value.unplaced_block, Value.unplaced_block, List.map_cons, List.map_cons, hread,
      Item.unplaced, Item.unplaced, hslot]

end

end Scan

end RebolScan
