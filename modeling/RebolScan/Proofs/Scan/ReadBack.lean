import RebolScan.Proofs.Scan.Run
import RebolScan.Proofs.Value.Spellable

/-!
# What was written is read back

A value that can be written as source text is read back from it as the same value, wherever it
stands and whatever stands around it.

`ReadsBack t d v` says this of one value at one round of a level: performing the element in front of
its text comes to the value, and leaves what follows (`Left`). The levels inside are `d` deep at
most, and the scan has room for them. A level reads its items one by one (`items_read`), and so does
a path its segments (`segments_read`), so what is said of the items of a sequence is said of the
sequence.

Reading interns names that the table of the value need not know, such as the `none` of `#[none]`. So
tables only grow here, and a value keeps its symbols in every later one.
-/

set_option autoImplicit false

namespace RebolScan

open Ascii

/-- The items came to `out` after what `c` had collected, and are the same but for their places. -/
def Collected.Adds (c : Collected) (items : List Item) (out : Collected) : Prop :=
  ∃ read, out.toBlock.items = c.toBlock.items ++ read ∧
    read.map Item.unplaced = items.map Item.unplaced

namespace Collected

variable {c out : Collected} {items : List Item}

theorem Adds.refl (c : Collected) : c.Adds [] c := ⟨[], (List.append_nil _).symm, rfl⟩

theorem Adds.push {v : Value} {span : Span} {item : Item} (hv : v.unplaced = item.value.unplaced)
    (h : (c.push v span).Adds items out) : c.Adds (item :: items) out := by
  obtain ⟨read, hout, hread⟩ := h
  refine ⟨⟨v, c.newLine, span⟩ :: read, ?_, ?_⟩
  · rw [hout]
    show (_ :: c.items).reverse ++ read = c.items.reverse ++ _ :: read
    rw [List.reverse_cons, List.append_assoc]
    rfl
  · rw [List.map_cons, List.map_cons, hread, Item.unplaced, Item.unplaced, hv]

end Collected

namespace Scan

open Session

/-- The scan can read what nests `d` levels deep, with the names of `t`. -/
structure Ready (t : SymbolTable) (d fuel room : Nat) (s : Session) : Prop where
  room : d ≤ room
  fuel : s.cursor.rest.length < fuel
  symbols : t.Within s.symbols

/-- **The value is read back** wherever it stands: the element in front of its text comes to the
value, but for places, and takes all of that text. -/
def ReadsBack (t : SymbolTable) (d : Nat) (v : Value) : Prop :=
  ∀ (level : Level) (start : Nat) {fuel room : Nat} {s : Session} {rest : Bytes},
    Ready t d fuel room s →
    Follows level rest → (level = .path → v.isSegment = true) →
    s.cursor.rest = v.spell t ++ rest →
    ∃ v' u, perform standardSetup (inside standardSetup fuel room)
        (Element.of level s.cursor.rest (Lexeme.ofFront s.cursor.rest)) start s =
          .ok (.value v') u ∧
      v'.unplaced = v.unplaced ∧ s.Left u rest

/-- The value can be written, and what is written is read back. -/
structure Readable (t : SymbolTable) (d : Nat) (v : Value) : Prop where
  written : v.Spellable t d
  read : ReadsBack t d v

section

variable {t : SymbolTable} {d fuel room start : Nat} {level : Level} {opened : Site}
  {c : Collected} {s u : Session} {rest tail : Bytes}

theorem Ready.looked (h : Ready t d fuel room s) : Ready t d fuel room s.looked :=
  ⟨h.room, Nat.lt_of_le_of_lt (length_looked_le s) h.fuel, h.symbols⟩

theorem Ready.left (h : Ready t d fuel room s) (hu : s.Left u rest)
    (hle : rest.length ≤ s.cursor.rest.length) : Ready t d fuel room u :=
  ⟨h.room, by rw [hu.rest]; exact Nat.lt_of_le_of_lt hle h.fuel, h.symbols.trans hu.symbols⟩

/-- Taking some text leaves the scan ready. -/
theorem Ready.past {w : Bytes} (h : Ready t d fuel room s) (hs : s.cursor.rest = w ++ rest)
    (hu : s.Left u rest) : Ready t d fuel room u :=
  h.left hu (by rw [hs, List.length_append]; exact Nat.le_add_left _ _)

/-- A level that could be read has room for the levels inside it. -/
theorem Ready.inside (h : Ready t (d + 1) fuel room s) :
    ∃ r, room = r + 1 ∧ Ready t d fuel r s := by
  obtain ⟨r, rfl⟩ := Nat.exists_eq_succ_of_ne_zero (n := room) (by have := h.room; omega)
  exact ⟨r, rfl, Nat.le_of_succ_le_succ h.room, h.fuel, h.symbols⟩

theorem not_space_of_startsValue : ∀ b, startsValue b = true → isSpace b = false := by
  intro b h
  rcases Bool.or_eq_true_iff.1 h with h | h
  · exact @not_space_of_isSolid [] b <|
      (Bool.or_eq_true_iff.1 h).elim isSolid_of_isLetter isSolid_of_isDigit
  · have hmem := List.contains_iff_mem.1 h
    simp only [List.mem_cons, List.not_mem_nil, or_false] at hmem
    rcases hmem with rfl | rfl | rfl | rfl | rfl | rfl | rfl <;> rfl

/-- What is no segment stands in no path. -/
theorem ne_path_of_not_segment {v : Value} (hv : v.isSegment = false)
    (hseg : level = .path → v.isSegment = true) : level ≠ .path := by
  intro hl
  rw [hseg hl] at hv
  cases hv

/-! ## Values without parts -/

/-- A value whose text is its element is read back. -/
theorem readsBack_of_element {v : Value}
    (h : ∀ {level : Level} {rest : Bytes}, Follows level rest →
      (level = .path → v.isSegment = true) →
      Element.of level (v.spell t ++ rest) (Lexeme.ofFront (v.spell t ++ rest)) =
        ⟨.value v, (v.spell t).length⟩) : ReadsBack t d v := by
  intro level start fuel room s rest hready hf hseg hs
  obtain ⟨u, hu, hleft⟩ := perform_value (inside standardSetup fuel room) start v hs
  rw [hs, h hf hseg]
  exact ⟨v, u, hu, rfl, hleft⟩

/-- Outside a path nothing more need be said of what is no segment. -/
theorem readsBack_of_literal {v : Value} (hv : v.isSegment = false)
    (h : ∀ {level : Level} {rest : Bytes}, level ≠ .path → isDelimiter (byteAt rest 0) = true →
      Element.of level (v.spell t ++ rest) (Lexeme.ofFront (v.spell t ++ rest)) =
        ⟨.value v, (v.spell t).length⟩) : ReadsBack t d v := by
  apply readsBack_of_element
  intro level rest hf hseg
  have hl := ne_path_of_not_segment hv hseg
  exact h hl (hf.terminates hl).1

theorem readsBack_integer {n : Int} (h : Literal.fitsInt64 n = true) :
    ReadsBack t d (.integer n) := by
  have htext : (Value.integer n).spell t = _ := Literal.encode_toString_int n
  have hdigits := Literal.digits_toString n.natAbs
  have hvalue : n = if decide (n < 0) then -(n.natAbs : Int) else n.natAbs := by
    by_cases hn : n < 0
    · rw [if_pos (decide_eq_true hn)]
      omega
    · rw [if_neg (by simpa using hn)]
      omega
  apply readsBack_of_element
  intro level rest hf hseg
  rw [htext]
  have hplain := @Element.of_integer rest level _ _ _ _ hdigits hvalue h
  cases level with
  | top | inside b => exact hplain hf.1 (.inr hf.2)
  | path =>
    cases hf with
    | delimiter hd => exact hplain hd (.inl rfl)
    | colon hd =>
      -- The digits and the colon look like a time.
      have hn : ¬n < 0 := by
        have : 0 ≤ n := by simpa [Value.isSegment] using hseg rfl
        omega
      have hnat : (n.natAbs : Int) = n := by omega
      have hcolon := Element.of_integer_colon hdigits (by rwa [hnat]) hd.1
      rw [hnat] at hcolon
      rw [decide_eq_false hn]
      exact hcolon

theorem readsBack_tuple {parts : List Nat} (h₁ : Literal.minTuple ≤ parts.length)
    (h₂ : parts.length ≤ Literal.maxTuple) (h : ∀ n ∈ parts, n < 256) :
    ReadsBack t d (.tuple parts) := by
  have htext : (Value.tuple parts).spell t =
      Utf8.encode (".".intercalate (parts.map toString)) := rfl
  apply readsBack_of_literal rfl
  intro level rest hl hdelim
  rw [htext]
  exact Element.of_tuple hl h₁ h₂ h hdelim

theorem readsBack_time {time : Time} (h : Literal.fitsInt64 time.nanos = true)
    (hmin : time.nanos ≠ -2 ^ 63) : ReadsBack t d (.time time) := by
  have htext : (Value.time time).spell t = Utf8.encode time.text := rfl
  apply readsBack_of_literal rfl
  intro level rest hl hdelim
  rw [htext]
  exact Element.of_time hl h hmin hdelim

theorem readsBack_binary (bytes : Bytes) : ReadsBack t d (.binary bytes) := by
  have htext : (Value.binary bytes).spell t = Utf8.encode (binaryText bytes) := rfl
  apply readsBack_of_literal rfl
  intro level rest hl hdelim
  rw [htext]
  exact Element.of_binary hl bytes

/-! ## Words and issues -/

/-- A word in front is interned, and its symbol is the one that the table has for its name. -/
theorem word_reads (start : Nat) {kind : WordKind} {a : Symbol} (ha : t.Knows a) {w : Bytes}
    (hready : Ready t d fuel room s) (hs : s.cursor.rest = w ++ rest)
    (hof : Element.of level (w ++ rest) (Lexeme.ofFront (w ++ rest)) =
      ⟨.word kind (t.lookup a), w.length⟩) :
    ∃ u, perform standardSetup (inside standardSetup fuel room)
        (Element.of level s.cursor.rest (Lexeme.ofFront s.cursor.rest)) start s =
          .ok (.value (.word kind a)) u ∧ s.Left u rest := by
  obtain ⟨symbol, u, hu, hleft, hsymbol⟩ :=
    perform_word (inside standardSetup fuel room) start kind (t.lookup a) hs
  cases ha.eq_of_get? (hready.symbols.trans hleft.symbols) hsymbol
  rw [hs, hof]
  exact ⟨u, hu, hleft⟩

theorem readable_word (kind : WordKind) {a : Symbol} (ha : t.Names a) :
    Readable t d (.word kind a) := by
  refine ⟨.word kind ha, ?_⟩
  intro level start fuel room s rest hready hf hseg hs
  have hof : Element.of level ((Value.word kind a).spell t ++ rest)
      (Lexeme.ofFront ((Value.word kind a).spell t ++ rest)) =
        ⟨.word kind (t.lookup a), ((Value.word kind a).spell t).length⟩ := by
    rw [spell_word]
    cases kind with
    | word => exact Element.of_word ha.isName hf
    | setWord =>
      have hl := ne_path_of_not_segment rfl hseg
      have hof := Element.of_setWord ha.isName hl (hf.terminates hl)
      simpa using hof
    | getWord =>
      have hl := ne_path_of_not_segment rfl hseg
      have hf := hf.terminates hl
      exact Element.of_getWord ha.isName hf.1 (.inr hf.2)
    | litWord =>
      have hl := ne_path_of_not_segment rfl hseg
      have hf := hf.terminates hl
      exact Element.of_litWord ha.isName hf.1 (.inr hf.2)
    | refinement =>
      have hl := ne_path_of_not_segment rfl hseg
      exact Element.of_refinement ha.isName hl (hf.terminates hl)
  obtain ⟨u, hu, hleft⟩ := word_reads start ha.knows hready hs hof
  exact ⟨_, u, hu, rfl, hleft⟩

theorem readsBack_issue {a : Symbol} (ha : t.Knows a)
    (h : Literal.isIssueText (Utf8.encode (t.lookup a)) = true) : ReadsBack t d (.issue a) := by
  intro level start fuel room s rest hready hf hseg hs
  have hl := ne_path_of_not_segment rfl hseg
  have hof := Element.of_issue hl h (hf.terminates hl).1
  obtain ⟨symbol, u, hu, hleft, hsymbol⟩ :=
    perform_issue (inside standardSetup fuel room) start (t.lookup a) hs
  cases ha.eq_of_get? (hready.symbols.trans hleft.symbols) hsymbol
  rw [spell_issue] at hs hu
  rw [hs]
  exact ⟨.issue a, u, (congrArg (fun r => perform _ _ r start s) hof).trans hu, rfl, hleft⟩

/-! ## Items and segments -/

/-- In front of a value no space is skipped. -/
theorem looked_rest_of_value {v : Value} (h : v.Spellable t d) {w : Bytes}
    (hs : s.cursor.rest = v.spell t ++ w) : s.looked.cursor.rest = s.cursor.rest := by
  refine (looked_of_not_space (not_space_of_startsValue _ ?_)).2
  rw [hs]
  exact h.starts w

section

variable {items : List Item} (h : ∀ item ∈ items, Readable t d item.value)

include h

/-- No space stands in front of items. -/
theorem spellItems_not_space (hspace : isSpace (byteAt rest 0) = false) :
    isSpace (byteAt (spellItems t space items ++ rest) 0) = false := by
  cases items with
  | nil => exact hspace
  | cons item items =>
    obtain ⟨more, hmore⟩ := spellItems_append t space item items rest
    rw [hmore]
    exact not_space_of_startsValue _ ((h item List.mem_cons_self).written.starts more)

/-- The text of an item in front of others ends where it has to, and behind it the text of the
others is next. -/
theorem spellItems_first (item : Item) (hrest : Terminates rest)
    (hspace : isSpace (byteAt rest 0) = false) :
    ∃ behind, spellItems t space (item :: items) ++ rest = item.value.spell t ++ behind ∧
      Terminates behind ∧ behind.dropWhile isSpace = spellItems t space items ++ rest := by
  have hnext := dropWhile_of_not_space (spellItems_not_space h hspace)
  cases items with
  | nil => exact ⟨rest, rfl, hrest, hnext⟩
  | cons next items =>
    refine ⟨space :: (spellItems t space (next :: items) ++ rest), ?_, terminates_space _, hnext⟩
    rw [spellItems_cons t _ _ (List.cons_ne_nil _ _), List.append_assoc]
    rfl

/-- **The items of a level are read back**, one by one. -/
theorem items_read (opened : Site) (c : Collected) (hl : level ≠ .path) (hrest : Terminates rest)
    (hspace : isSpace (byteAt rest 0) = false) (hready : Ready t d fuel room s)
    (hs : s.looked.cursor.rest = spellItems t space items ++ rest) :
    ∃ c' s', c.Adds items c' ∧ Ready t d fuel room s' ∧ s'.looked.cursor.rest = rest ∧
      s.symbols.Within s'.symbols ∧
      ∀ {out u}, Finishes (inside standardSetup fuel room) level opened c' s' out u →
        Finishes (inside standardSetup fuel room) level opened c s out u := by
  -- What the level does behind the items depends on the level, so it is left to the caller.
  induction items generalizing c s with
  | nil => exact ⟨c, s, .refl c, hready, hs, .refl _, id⟩
  | cons item items ih =>
    obtain ⟨hitem, hmore⟩ := List.forall_mem_cons.1 h
    obtain ⟨behind, htext, hbehind, hnext⟩ := spellItems_first hmore item hrest hspace
    rw [htext] at hs
    obtain ⟨v, u, hu, hv, hleft⟩ := hitem.read level s.looked.cursor.start hready.looked
      (hbehind.follows hl) (fun he => absurd he hl) hs
    have hlength : behind.length < s.looked.cursor.rest.length := by
      have hpos := hitem.written.length_pos
      rw [hs, List.length_append]
      omega
    obtain ⟨span, hturn⟩ := turn_value opened c hl hu
    obtain ⟨c', s', hc', hready', hs', hsymbols, hrun⟩ := ih hmore (c.push v span)
      (hready.looked.past hs hleft) (by rw [looked_rest, hleft.rest, hnext])
    refine ⟨c', s', hc'.push hv, hready', hs', hleft.symbols.trans hsymbols, ?_⟩
    intro out u' hout
    refine Finishes.step hturn ?_ (hrun hout)
    show u.cursor.rest.length < s.cursor.rest.length
    rw [hleft.rest]
    exact Nat.lt_of_lt_of_le hlength (length_looked_le s)

/-- What stands behind a slash in a path. -/
theorem segments_next (hne : items ≠ []) (hsegment : ∀ item ∈ items, item.value.isSegment = true)
    (tail : Bytes) :
    byteAt (spellItems t slash items ++ tail) 0 = parenOpen ∨
      isDelimiter (byteAt (spellItems t slash items ++ tail) 0) = false := by
  obtain ⟨item, items, rfl⟩ := List.exists_cons_of_ne_nil hne
  obtain ⟨more, hmore⟩ := spellItems_append t slash item items tail
  rw [hmore]
  exact (h item List.mem_cons_self).written.startsSegment (hsegment item List.mem_cons_self) more

/-- **The segments of a path are read back**, up to where no slash follows. -/
theorem segments_read (opened : Site) (c : Collected) (hne : items ≠ [])
    (hsegment : ∀ item ∈ items, item.value.isSegment = true) (htail : EndsSegment tail)
    (hslash : byteAt tail 0 ≠ slash) (hready : Ready t d fuel room s)
    (hs : s.cursor.rest = spellItems t slash items ++ tail) :
    ∃ out u, c.Adds items out ∧ s.Left u tail ∧
      Finishes (inside standardSetup fuel room) .path opened c s out u := by
  induction items generalizing c s with
  | nil => exact absurd rfl hne
  | cons item items ih =>
    obtain ⟨hitem, hmore⟩ := List.forall_mem_cons.1 h
    obtain ⟨hfirst, hothers⟩ := List.forall_mem_cons.1 hsegment
    -- A path ends in the round of its last segment, which has no slash behind it.
    cases items with
    | nil =>
      have hlooked := looked_rest_of_value hitem.written hs
      obtain ⟨v, u, hu, hv, hleft⟩ := hitem.read .path s.looked.cursor.start hready.looked htail
        (fun _ => hfirst) (hlooked.trans hs)
      obtain ⟨span, hturn⟩ := turn_last opened c hu hleft hslash
      exact ⟨_, u, (Collected.Adds.refl _).push hv, hleft.of_looked, .last hturn⟩
    | cons next items =>
      have hne : next :: items ≠ [] := List.cons_ne_nil _ _
      rw [spellItems_cons t _ _ hne, List.append_assoc] at hs
      have hlooked := looked_rest_of_value hitem.written hs
      obtain ⟨v, u, hu, hv, hleft⟩ := hitem.read .path s.looked.cursor.start hready.looked
        (.delimiter rfl) (fun _ => hfirst) (hlooked.trans hs)
      obtain ⟨span, u', hturn, hleft'⟩ := turn_segment opened c hu hleft
        (segments_next hmore hne hothers tail)
      have hlength : (spellItems t slash (next :: items) ++ tail).length <
          s.cursor.rest.length := by
        rw [hs]
        simp only [List.cons_append, List.length_append, List.length_cons]
        omega
      obtain ⟨out, u'', hout, hleft'', hrun⟩ := ih hmore (c.push v span) hne hothers
        (hready.left hleft'.of_looked (Nat.le_of_lt hlength)) hleft'.rest
      refine ⟨out, u'', hout.push hv, hleft'.of_looked.trans hleft'', .step hturn ?_ hrun⟩
      show u'.cursor.rest.length < s.cursor.rest.length
      rwa [hleft'.rest]

/-! ## Brackets -/

/-- Items are read up to the bracket that closes their level. -/
theorem items_close (opened : Site) (c : Collected) {b : Bracket} (hready : Ready t d fuel room s)
    (hs : s.looked.cursor.rest = spellItems t space items ++ b.closeByte :: rest) :
    ∃ out u, c.Adds items out ∧ s.Left u rest ∧
      Finishes (inside standardSetup fuel room) (.inside b) opened c s out u := by
  have hlevel : Level.inside b ≠ .path := Level.noConfusion
  obtain ⟨c', s', hc', -, hs', hsymbols, hrun⟩ := items_read h opened c hlevel
    (b.terminates_close rest) (b.not_space_close rest) hready hs
  obtain ⟨u, hturn, hleft⟩ := turn_closer opened c' (inside standardSetup fuel room) hs'
  exact ⟨c', u, hc', ⟨hleft.rest, hleft.settled, hsymbols.trans hleft.symbols⟩, hrun (.last hturn)⟩

end

/-- **A block or paren is read back** if its items are. -/
theorem readable_sequence (b : Bracket) {body : Block}
    (h : ∀ item ∈ body.items, Readable t d item.value) :
    Readable t (d + 1) (.block b.blockKind body) := by
  refine ⟨.sequence b fun item hi => (h item hi).written, ?_⟩
  intro level start fuel room s rest hready _ _ hs
  obtain ⟨room, rfl, hinner⟩ := hready.inside
  -- Behind the opening bracket a level starts, which ends behind the closing one.
  rw [spell_sequence, List.cons_append, List.append_assoc] at hs
  have hpast : s.Left { s with cursor := s.cursor.advance 1 }
      (spellItems t space body.items ++ b.closeByte :: rest) :=
    left_advance (w := [b.openByte]) hs (.refl _)
  have hlooked := (looked_of_not_space (s := { s with cursor := s.cursor.advance 1 })
    (by rw [hpast.rest]; exact spellItems_not_space h (b.not_space_close rest))).2
  have hinner := hinner.past (w := [b.openByte]) hs hpast
  obtain ⟨out, u, ⟨read, hitems, hread⟩, hleft, hrun⟩ := items_close h
    ⟨s.cursor.line, s.cursor.lineStart⟩ .empty hinner (hlooked.trans hpast.rest)
  have hbody := level_of_finishes (s := { s with cursor := s.cursor.advance 1 }) hrun hinner.fuel
  refine ⟨.block b.blockKind out.toBlock, u, ?_, ?_, hpast.trans hleft⟩
  · rw [hs, Element.of_openBracket]
    exact perform_opener hbody
  · rw [Value.unplaced_block, Value.unplaced_block, hitems]
    exact congrArg (fun items => Value.block _ ⟨items, false⟩) hread

end

end Scan

end RebolScan
