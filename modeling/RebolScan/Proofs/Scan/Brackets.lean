import RebolScan.Proofs.Scan.Nesting
import RebolScan.Proofs.Scan.Run
import RebolScan.Proofs.Scan.Triple
import RebolScan.Proofs.Text.Brackets

/-!
# Scanning bracket text

A strict scan of bracket text **succeeds exactly if the text is well nested within the limit, and then
its values are the forest that the text spells; otherwise it fails with the first violation**
(`bracket_language`).

Both halves are one statement about the rounds of a level, with the brackets that are open as a stack
(`Reads`, `Violates`). A level inside brackets ends behind its closer, so what it has read is put in
front of what its level goes on to read, and a violation of what is left is a violation of the whole
(`Leads`).
-/

set_option autoImplicit false

namespace RebolScan

open Ascii Scan

/-! ## Bytes -/

theorem BracketByte.blank_of_isSpace {b : UInt8} (h : BracketByte b) (hspace : isSpace b = true) :
    isBracketBlank b = true := by
  have hlower : ∀ b, isLower b = true → isSpace b = false := fun b hb =>
    @not_space_of_isSolid [] b (isSolid_of_isLetter (by rw [isLetter, hb, Bool.or_true]))
  obtain b | b | h | h := h
  · cases b <;> cases hspace
  · cases b <;> cases hspace
  · rw [hlower _ h] at hspace
    cases hspace
  · exact h

/-- What is no letter ends a word, and starts no path behind it. -/
theorem BracketByte.ends_word {b : UInt8} (h : BracketByte b) (hlower : isLower b = false) :
    isDelimiter b = true ∧ b ≠ slash := by
  obtain b | b | h | h := h
  · cases b <;> decide
  · cases b <;> decide
  · rw [h] at hlower
    cases hlower
  · rcases eq_of_isBracketBlank h with rfl | rfl <;> decide

/-! ## What stands for a forest -/

/-- The items are the forest: its words under their symbols, spanning their letters, and its groups as
blocks and parens of what is in them. -/
inductive Forest.Stands (source : Bytes) (table : SymbolTable) : Forest → List Item → Prop
  | nil : Stands source table .nil []
  | word {letters : Bytes} {rest : Forest} {name : String} {symbol : Symbol} {line : Bool}
      {span : Span} {items : List Item} (hname : Utf8.encode name = letters)
      (hsymbol : table.get? name = some symbol) (hspan : span.slice source = letters)
      (h : Stands source table rest items) :
      Stands source table (.word letters rest) (⟨.word .word symbol, line, span⟩ :: items)
  | nest {b : Bracket} {inner rest : Forest} {body : Block} {line : Bool} {span : Span}
      {items : List Item} (hinner : Stands source table inner body.items)
      (h : Stands source table rest items) :
      Stands source table (.nest b inner rest) (⟨.block b.blockKind body, line, span⟩ :: items)

theorem Forest.Stands.mono {source : Bytes} {table table' : SymbolTable} {f : Forest}
    {items : List Item} (h : f.Stands source table items) (hle : table.Within table') :
    f.Stands source table' items := by
  induction h with
  | nil => exact .nil
  | word hname hsymbol hspan _ ih => exact .word hname (hle _ _ hsymbol) hspan ih
  | nest _ _ ihinner ih => exact .nest ihinner ih

/-- The small letters in front of a text. -/
theorem exists_letters {text : Bytes} (h : isLower (byteAt text 0) = true) :
    ∃ letters rest, text = letters ++ rest ∧ letters ≠ [] ∧ (∀ b ∈ letters, isLower b = true) ∧
      isLower (byteAt rest 0) = false := by
  induction text with
  | nil => cases h
  | cons b text ih =>
    rw [byteAt_cons_zero] at h
    by_cases hnext : isLower (byteAt text 0) = true
    · obtain ⟨letters, rest, rfl, -, hletters, hend⟩ := ih hnext
      exact ⟨b :: letters, rest, rfl, List.cons_ne_nil _ _, List.forall_mem_cons.2 ⟨h, hletters⟩,
        hend⟩
    · exact ⟨[b], text, rfl, List.cons_ne_nil _ _, List.forall_mem_singleton.2 h,
        Bool.eq_false_iff.2 hnext⟩

/-- Small letters are the name that they spell, and a name that words may have. -/
theorem exists_name {letters : Bytes} (hne : letters ≠ [])
    (h : ∀ b ∈ letters, isLower b = true) :
    ∃ name, Utf8.encode name = letters ∧ isName letters = true := by
  have hascii : ∀ b : UInt8, isLower b = true →
      (Char.ofNat b.toNat).toNat < 128 ∧ UInt8.ofNat (Char.ofNat b.toNat).toNat = b :=
    forall_byte (by decide +kernel)
  refine ⟨String.ofList (letters.map fun b => Char.ofNat b.toNat), ?_, ?_⟩
  · rw [Utf8.encode_ofList, List.map_map]
    · refine (List.map_congr_left fun b hb => ?_).trans (List.map_id letters)
      exact (hascii b (h b hb)).2
    · intro c hc
      obtain ⟨b, hb, rfl⟩ := List.mem_map.1 hc
      exact (hascii b (h b hb)).1
  · cases letters with
    | nil => exact absurd rfl hne
    | cons b letters =>
      rw [List.forall_mem_cons] at h
      rw [isName, isLetter, h.1, Bool.or_true, Bool.true_and, List.all_eq_true]
      intro c hc
      rw [isNameByte, isLetter, h.2 c hc, Bool.or_true]
      rfl

namespace Scan

open Session

/-- The level that is being read where `stack` is open, innermost first. -/
def levelOf : List Bracket → Level
  | [] => .top
  | b :: _ => .inside b

theorem levelOf_ne_path (stack : List Bracket) : levelOf stack ≠ .path := by
  cases stack <;> exact Level.noConfusion

/-- Where a level ends: at the end of the text, or behind its closer. -/
def Closing : List Bracket → Bytes → Bytes → Prop
  | [], rest, after => rest = [] ∧ after = []
  | b :: _, rest, after => rest = b.closeByte :: after

section

variable {source : Bytes} {d : Nat} {stack : List Bracket} {s t u : Session}

/-- From `s`, in a level with `stack` open, the items are read that are left of the level, up to `t`
behind it: they are a forest within the depth, and nothing is violated. -/
structure Reads (source : Bytes) (d : Nat) (stack : List Bracket) (s : Session) (items : List Item)
    (t : Session) : Prop where
  place : t.At source
  within : s.symbols.Within t.symbols
  forest : ∃ (f : Forest) (text rest : Bytes), s.cursor.rest = text ++ rest ∧
    Closing stack rest t.cursor.rest ∧ f.Spelled text ∧ stack.length + f.depth ≤ d ∧
    f.Stands source t.symbols items
  same : violation d s.cursor.start stack s.cursor.rest =
    violation d t.cursor.start stack.tail t.cursor.rest

/-- A level inside brackets has taken its closer at least. -/
theorem Reads.shorter {b : Bracket} {items : List Item}
    (h : Reads source d (b :: stack) s items t) : s.Shorter t := by
  obtain ⟨f, text, rest, htext, hclosing, -, -, -⟩ := h.forest
  have hclosing : rest = b.closeByte :: t.cursor.rest := hclosing
  show t.cursor.rest.length < s.cursor.rest.length
  rw [htext, hclosing, List.length_append, List.length_cons]
  omega

/-- The fault is the violation that the text from `s` has first. -/
def Violates (d : Nat) (stack : List Bracket) (s : Session) (f : Fault) : Prop :=
  violation d s.cursor.start stack s.cursor.rest = some (f.kind, f.span)

/-- The items lead from `s` to `t` in one level: they go in front of what is read from there. -/
structure Leads (source : Bytes) (d : Nat) (stack : List Bracket) (s : Session) (items : List Item)
    (t : Session) : Prop where
  place : t.At source
  same : violation d s.cursor.start stack s.cursor.rest =
    violation d t.cursor.start stack t.cursor.rest
  reads : ∀ more u, Reads source d stack t more u → Reads source d stack s (items ++ more) u

theorem Leads.trans {items more : List Item} (hst : Leads source d stack s items t)
    (htu : Leads source d stack t more u) : Leads source d stack s (items ++ more) u where
  place := htu.place
  same := hst.same.trans htu.same
  reads last v h := by
    rw [List.append_assoc]
    exact hst.reads _ v (htu.reads last v h)

theorem Leads.violates {items : List Item} {f : Fault} (hst : Leads source d stack s items t)
    (h : Violates d stack t f) : Violates d stack s f := hst.same.trans h

/-- Text in front of a forest leads past itself if the two together spell a forest and the items that
it came to stand in front of the others. -/
theorem leads_of {v : Bytes} {items : List Item} (grow : Forest → Forest)
    (hrest : s.cursor.rest = v ++ t.cursor.rest) (hplace : t.At source)
    (hwithin : s.symbols.Within t.symbols)
    (hsame : violation d s.cursor.start stack s.cursor.rest =
      violation d t.cursor.start stack t.cursor.rest)
    (hspelled : ∀ f text rest, t.cursor.rest = text ++ rest → f.Spelled text →
      (grow f).Spelled (v ++ text))
    (hdepth : ∀ f : Forest, stack.length + f.depth ≤ d → stack.length + (grow f).depth ≤ d)
    (hstands : ∀ f table more, t.symbols.Within table → Forest.Stands source table f more →
      (grow f).Stands source table (items ++ more)) :
    Leads source d stack s items t where
  place := hplace
  same := hsame
  reads more u h := by
    obtain ⟨f, text, rest, htext, hclosing, hf, hd, hs⟩ := h.forest
    refine ⟨h.place, hwithin.trans h.within, ?_, hsame.trans h.same⟩
    refine ⟨grow f, v ++ text, rest, ?_, hclosing, hspelled f text rest htext hf, hdepth f hd,
      hstands f _ more h.within hs⟩
    rw [hrest, htext, List.append_assoc]

/-- Blanks lead past themselves. -/
theorem leads_blanks {v : Bytes} (hv : ∀ b ∈ v, isBracketBlank b = true)
    (hrest : s.cursor.rest = v ++ t.cursor.rest) (hstart : t.cursor.start = s.cursor.start + v.length)
    (hplace : t.At source) (hwithin : s.symbols.Within t.symbols) :
    Leads source d stack s [] t := by
  refine leads_of id hrest hplace hwithin ?_ ?_ (fun f hd => hd) fun f table more _ hs => hs
  · rw [hrest, hstart]
    exact violation_plain _ _ (fun b hb => isPlain_of_isBracketBlank (hv b hb)) _
  · intro f text rest _ hf
    exact hf.blanks hv

/-- A word leads past itself. -/
theorem leads_word {name : String} {symbol : Symbol} {line : Bool} {span : Span}
    (hne : Utf8.encode name ≠ []) (hletters : ∀ b ∈ Utf8.encode name, isLower b = true)
    (hend : isLower (byteAt t.cursor.rest 0) = false)
    (hrest : s.cursor.rest = Utf8.encode name ++ t.cursor.rest)
    (hstart : t.cursor.start = s.cursor.start + (Utf8.encode name).length) (hplace : t.At source)
    (hwithin : s.symbols.Within t.symbols) (hsymbol : t.symbols.get? name = some symbol)
    (hspan : span.slice source = Utf8.encode name) :
    Leads source d stack s [⟨.word .word symbol, line, span⟩] t := by
  refine leads_of (.word (Utf8.encode name)) hrest hplace hwithin ?_ ?_ (fun f hd => hd) ?_
  · rw [hrest, hstart]
    exact violation_plain _ _ (fun b hb => isPlain_of_isLower (hletters b hb)) _
  · intro f text rest htext hf
    refine .word hne hletters ?_ hf
    cases text with
    | nil => rfl
    | cons b text =>
      rw [htext] at hend
      exact hend
  · intro f table more htable hs
    exact .word rfl (htable _ _ hsymbol) hspan hs

/-- So does a group, with all that is in it. -/
theorem leads_nest {b : Bracket} {body : Block} {line : Bool} {span : Span} {v : Session}
    (hrest : s.cursor.rest = b.openByte :: v.cursor.rest)
    (hstart : v.cursor.start = s.cursor.start + 1) (hsymbols : v.symbols = s.symbols)
    (hroom : stack.length < d) (h : Reads source d (b :: stack) v body.items t) :
    Leads source d stack s [⟨.block b.blockKind body, line, span⟩] t := by
  obtain ⟨inner, text, rest, htext, hclosing, hinner, hd, hs⟩ := h.forest
  have hclosing : rest = b.closeByte :: t.cursor.rest := hclosing
  have hwithin : s.symbols.Within t.symbols := by
    rw [← hsymbols]
    exact h.within
  refine leads_of (v := b.openByte :: text ++ [b.closeByte]) (.nest b inner) ?_ h.place hwithin
    ?_ ?_ ?_ ?_
  · rw [hrest, htext, hclosing, List.append_assoc]
    rfl
  · rw [hrest, violation_opener, if_pos hroom, ← hstart]
    exact h.same
  · intro f text' rest' _ hf
    rw [List.append_assoc]
    exact .nest b hinner hf
  · intro f hf
    rw [List.length_cons] at hd
    rw [Forest.depth]
    omega
  · intro f table more htable hmore
    exact .nest (hs.mono htable) hmore

/-! ## One round -/

section

variable (hsource : ∀ b ∈ source, isBracketByte b = true)

include hsource

theorem bracketByte_of_mem (hs : s.At source) {b : UInt8} (hb : b ∈ s.cursor.rest) :
    BracketByte b := by
  rw [hs.rest] at hb
  exact bracketByte_of (hsource b (List.mem_of_mem_drop hb))

/-- Looking leads past the spaces in front. -/
theorem leads_looked (hs : s.At source) : Leads source d stack s [] s.looked := by
  have hsplit : s.cursor.rest.takeWhile isSpace ++ s.looked.cursor.rest = s.cursor.rest := by
    rw [looked_rest]
    exact List.takeWhile_append_dropWhile
  refine leads_blanks (v := s.cursor.rest.takeWhile isSpace) ?_ hsplit.symm rfl hs.looked (.refl _)
  intro b hb
  have hspace : isSpace b = true := List.all_eq_true.1 List.all_takeWhile b hb
  have hmem : b ∈ s.cursor.rest := (List.takeWhile_sublist _).subset hb
  exact (bracketByte_of_mem hsource hs hmem).blank_of_isSpace hspace

end

/-- What one round came to, from `s`: the level goes on behind some items, or it ended. -/
inductive BracketTurn (source : Bytes) (d : Nat) (stack : List Bracket) (s : Session) (c : Collected) :
    Collected × Bool → Session → Prop
  | goesOn {c' : Collected} {t : Session} (items : List Item)
      (hc : c'.items = items.reverse ++ c.items) (h : Leads source d stack s items t)
      (hlt : s.Shorter t) : BracketTurn source d stack s c (c', true) t
  | ended {c' : Collected} {t : Session} (hc : c'.items = c.items) (h : Reads source d stack s [] t) :
      BracketTurn source d stack s c (c', false) t

/-- What the levels inside are taken to do behind an opener at `start`: they read what it opens, or end
with the violation that the opener is followed by, or is itself. -/
def NestedReads (source : Bytes) (d : Nat) (stack : List Bracket) (nested : Nested) : Prop :=
  ∀ b start s, s.At source → s.cursor.start = start + 1 → s.cursor.stop = s.cursor.start →
    Ends (nested (.inside b) start) s
      (fun body t => stack.length < d ∧ Reads source d (b :: stack) s body.items t)
      fun f _ => violation d start stack (b.openByte :: s.cursor.rest) = some (f.kind, f.span)

section

variable {nested : Nested} {opened : Site} {c : Collected}

/-- At the end of the text the top level ends, and any other misses its closer. -/
theorem turn_atEnd (hs : s.At source) (hd : stack.length ≤ d) (hrest : s.looked.cursor.rest = []) :
    Ends (turn standardSetup nested (levelOf stack) opened c) s
      (BracketTurn source d stack s.looked c) fun f _ => Violates d stack s.looked f := by
  have hreading : s.reading (levelOf stack) = ⟨.endOfInput, 0⟩ := by
    rw [Session.reading, hrest]
    exact Element.of_end _
  rw [Ends, turn_apply, hreading]
  cases stack with
  | nil =>
    refine .ended rfl ⟨hs.looked, .refl _, ⟨.nil, [], [], hrest, ⟨rfl, hrest⟩, .nil, hd, .nil⟩, rfl⟩
  | cons b stack =>
    have hstop : s.token.stop = s.looked.cursor.start := by
      show s.looked.cursor.start + (Lexeme.ofFront s.looked.cursor.rest).length = _
      rw [hrest]
      rfl
    show violation d s.looked.cursor.start (b :: stack) s.looked.cursor.rest =
      some (.missing b, ⟨s.looked.cursor.start, s.token.stop⟩)
    rw [hrest, hstop]
    rfl

/-- A closer ends the level that it closes. It violates any other, and the top. -/
theorem turn_atCloser (hs : s.At source) (hd : stack.length ≤ d) {b : Bracket} {w : Bytes}
    (hrest : s.looked.cursor.rest = b.closeByte :: w) :
    Ends (turn standardSetup nested (levelOf stack) opened c) s
      (BracketTurn source d stack s.looked c) fun f _ => Violates d stack s.looked f := by
  have hreading : s.reading (levelOf stack) = ⟨.closer b, 1⟩ :=
    Element.of_closing _ (by rw [hrest, byteAt_cons_zero])
  have hstop : s.token.stop = s.looked.cursor.start + 1 := by
    have hlexeme : Lexeme.ofFront s.looked.cursor.rest = Lexeme.good b.closeKind 1 :=
      Lexeme.ofFront_closing (by rw [hrest, byteAt_cons_zero])
    show s.looked.cursor.start + (Lexeme.ofFront s.looked.cursor.rest).length = _
    rw [hlexeme]
    rfl
  rw [Ends, turn_apply, hreading]
  cases stack with
  | nil =>
    show violation d s.looked.cursor.start [] s.looked.cursor.rest =
      some (.extra b, ⟨s.looked.cursor.start, s.token.stop⟩)
    rw [hrest, hstop, violation_extra]
  | cons open? stack =>
    by_cases hb : open? = b
    · subst hb
      have hone : s.token.stop - s.looked.cursor.start = 1 := by omega
      have hclose : closer standardSetup (.inside open?) open? s.token opened c s.looked =
          .ok (c, false) { s.looked with cursor := s.looked.cursor.advance 1 } := by
        rw [closer, if_pos (by simp)]
        show EStateM.Result.ok (c, false) { s.looked with
          cursor := s.looked.cursor.advance (s.token.stop - s.looked.cursor.start) } = _
        rw [hone]
      show Ends (closer standardSetup (.inside open?) open? s.token opened c) s.looked _ _
      rw [ends_of_ok hclose]
      have hlen : 1 ≤ s.looked.cursor.rest.length := by
        rw [hrest]
        exact Nat.succ_pos _
      refine .ended rfl ⟨hs.looked.advance hlen, .refl _, ?_, ?_⟩
      · refine ⟨.nil, [], _, rfl, ?_, .nil, hd, .nil⟩
        show s.looked.cursor.rest = open?.closeByte :: s.looked.cursor.rest.drop 1
        rw [hrest]
        rfl
      · rw [hrest, violation_closer, if_pos rfl]
        show _ = violation d (s.looked.cursor.start + 1) stack (s.looked.cursor.rest.drop 1)
        rw [hrest]
        rfl
    · have hne : ¬(open? == b) = true := by simpa using hb
      show Ends (closer standardSetup (.inside open?) b s.token opened c) s.looked _ _
      rw [closer, if_neg hne]
      show violation d s.looked.cursor.start (open? :: stack) s.looked.cursor.rest =
        some (.missing open?, ⟨s.looked.cursor.start, s.token.stop⟩)
      rw [hrest, hstop, violation_closer, if_neg hb]

/-- A line feed is taken. -/
theorem turn_atLineFeed (hs : s.At source) {w : Bytes}
    (hrest : s.looked.cursor.rest = lineFeed :: w) :
    Ends (turn standardSetup nested (levelOf stack) opened c) s
      (BracketTurn source d stack s.looked c) fun f _ => Violates d stack s.looked f := by
  have hreading : s.reading (levelOf stack) = ⟨.lineBreak, 1⟩ := by
    rw [Session.reading, hrest]
    cases stack <;> rfl
  rw [Ends, turn_apply, hreading]
  show BracketTurn source d stack s.looked c (_, true) _
  have hlen : 1 ≤ s.looked.cursor.rest.length := by
    rw [hrest]
    exact Nat.succ_pos _
  have hplace := hs.looked.advance hlen
  refine .goesOn [] rfl (leads_blanks (v := [lineFeed]) ?_ ?_ rfl ⟨hplace.1, hplace.2, hplace.3⟩
    (.refl _)) ?_
  · exact List.forall_mem_singleton.2 rfl
  · show s.looked.cursor.rest = [lineFeed] ++ s.looked.cursor.rest.drop 1
    rw [hrest]
    rfl
  · show (s.looked.cursor.rest.drop 1).length < s.looked.cursor.rest.length
    rw [List.length_drop]
    omega

/-- A word is collected. -/
theorem turn_atWord (hsource : ∀ b ∈ source, isBracketByte b = true) (hs : s.At source)
    (hlower : isLower (byteAt s.looked.cursor.rest 0) = true) :
    Ends (turn standardSetup nested (levelOf stack) opened c) s
      (BracketTurn source d stack s.looked c) fun f _ => Violates d stack s.looked f := by
  obtain ⟨letters, rest, hsplit, hne, hletters, hend⟩ := exists_letters hlower
  obtain ⟨name, rfl, hname⟩ := exists_name hne hletters
  have hterminates : Terminates rest := by
    cases rest with
    | nil => exact ⟨rfl, by decide⟩
    | cons b rest =>
      have hb : BracketByte b := by
        apply bracketByte_of_mem hsource hs.looked
        rw [hsplit]
        exact List.mem_append_right _ List.mem_cons_self
      exact hb.ends_word hend
  have hreading : s.reading (levelOf stack) = ⟨.word .word name, (Utf8.encode name).length⟩ := by
    rw [Session.reading, hsplit]
    exact Element.of_word hname (hterminates.follows (levelOf_ne_path stack))
  have hperform : perform standardSetup nested (s.reading (levelOf stack)) s.looked.cursor.start
      s.looked = .ok (.value (.word .word (s.looked.symbols.intern name).1))
        { s.looked with
          cursor := s.looked.cursor.advance (Utf8.encode name).length
          symbols := (s.looked.symbols.intern name).2 } := by
    rw [hreading]
    rfl
  rw [ends_of_ok (turn_pushes opened c (levelOf_ne_path stack) hperform)]
  have hlen : (Utf8.encode name).length ≤ s.looked.cursor.rest.length := by
    rw [hsplit, List.length_append]
    exact Nat.le_add_right _ _
  have hleft : s.looked.cursor.rest.drop (Utf8.encode name).length = rest := by
    rw [hsplit, List.drop_left]
  have hplace := hs.looked.advance hlen
  refine .goesOn [_] rfl (leads_word hne hletters ?_ ?_ rfl
    ⟨hplace.1, hplace.2, hplace.3⟩ (SymbolTable.within_intern _ _) (SymbolTable.get?_intern _ _) ?_) ?_
  · exact (congrArg (fun text => isLower (byteAt text 0)) hleft).trans hend
  · exact hsplit.trans (congrArg (Utf8.encode name ++ ·) hleft.symm)
  · show between source s.looked.cursor.start (s.looked.cursor.start + _) = _
    rw [hs.looked.between, hsplit, List.take_left]
  · show (s.looked.cursor.rest.drop (Utf8.encode name).length).length < s.looked.cursor.rest.length
    have := List.length_pos_iff.2 hne
    rw [List.length_drop]
    omega

/-- A group is collected, or the violation in it is met. -/
theorem turn_atOpener (hn : NestedReads source d stack nested) (hs : s.At source) {b : Bracket}
    {w : Bytes} (hrest : s.looked.cursor.rest = b.openByte :: w) :
    Ends (turn standardSetup nested (levelOf stack) opened c) s
      (BracketTurn source d stack s.looked c) fun f _ => Violates d stack s.looked f := by
  have hreading : s.reading (levelOf stack) = ⟨.opener b, 1⟩ := by
    rw [Session.reading, hrest]
    exact Element.of_openBracket b _ w
  have hlen : 1 ≤ s.looked.cursor.rest.length := by
    rw [hrest]
    exact Nat.succ_pos _
  have hopened : s.looked.cursor.rest = b.openByte :: s.looked.cursor.rest.drop 1 := by
    rw [hrest]
    rfl
  have hperform : Ends (perform standardSetup nested ⟨.opener b, 1⟩ s.looked.cursor.start) s.looked
      (fun out t => ∃ body, out = .value (.block b.blockKind body) ∧ stack.length < d ∧
        Reads source d (b :: stack) { s.looked with cursor := s.looked.cursor.advance 1 }
          body.items t)
      fun f _ => Violates d stack s.looked f := by
    rw [perform_element (fun _ => Element.noConfusion)]
    refine Ends.after rfl ?_
    have hinner := hn b s.looked.cursor.start _ (hs.looked.advance hlen) rfl rfl
    have hviolates : b.openByte :: (s.looked.cursor.advance 1).rest = s.looked.cursor.rest :=
      hopened.symm
    rw [hviolates] at hinner
    show Ends (nested (.inside b) s.looked.cursor.start >>= fun body =>
      pure (Outcome.value (.block b.blockKind body))) _ _ _
    apply hinner.bind
    intro body t ht
    exact .pure ⟨body, rfl, ht⟩
  rw [Ends, turn_item (by rw [hreading]; rfl), hreading]
  show Ends (item standardSetup nested (levelOf stack) _ _ c) s.looked _ _
  have hattempt : Ends (attempt (perform standardSetup nested ⟨.opener b, 1⟩ s.looked.cursor.start))
      s.looked (fun out t => (∃ f, out = .error f ∧ Violates d stack s.looked f) ∨
        ∃ body, out = .ok (.value (.block b.blockKind body)) ∧ stack.length < d ∧
          Reads source d (b :: stack) { s.looked with cursor := s.looked.cursor.advance 1 }
            body.items t)
      fun f _ => Violates d stack s.looked f := by
    apply Ends.attempt
    cases hp : perform standardSetup nested ⟨.opener b, 1⟩ s.looked.cursor.start s.looked with
    | ok out t =>
      obtain ⟨body, rfl, hbody⟩ := hperform.ok hp
      exact (ends_of_ok hp).2 (.inr ⟨body, rfl, hbody⟩)
    | error f t => exact (ends_of_error hp).2 (.inl ⟨f, rfl, hperform.error hp⟩)
  refine hattempt.bind ?_
  rintro out t (⟨f, rfl, hf⟩ | ⟨body, rfl, hroom, hbody⟩)
  · exact hf
  · have hlt : t.cursor.rest.length < (s.looked.cursor.rest.drop 1).length := hbody.shorter
    have hsettle : settle standardSetup (levelOf stack) s.looked.cursor.start c
        (.ok (.value (.block b.blockKind body))) t =
          .ok (c.push (.block b.blockKind body) ⟨s.looked.cursor.start, t.cursor.start⟩, true) t := by
      cases stack <;> rfl
    rw [ends_of_ok hsettle]
    refine .goesOn [_] rfl (leads_nest ?_ ?_ ?_ hroom hbody) ?_
    · exact hopened
    · rfl
    · rfl
    · rw [List.length_drop] at hlt
      show t.cursor.rest.length < s.looked.cursor.rest.length
      omega

/-- **One round of a level leads on, ends the level, or meets the first violation.** -/
theorem turn_brackets (hsource : ∀ b ∈ source, isBracketByte b = true) (hn : NestedReads source d stack nested)
    (hd : stack.length ≤ d) (hs : s.At source) :
    Ends (turn standardSetup nested (levelOf stack) opened c) s
      (BracketTurn source d stack s.looked c) fun f _ => Violates d stack s.looked f := by
  cases hrest : s.looked.cursor.rest with
  | nil => exact turn_atEnd hs hd hrest
  | cons b w =>
    have hb : BracketByte b := by
      apply bracketByte_of_mem hsource hs.looked
      rw [hrest]
      exact List.mem_cons_self
    cases hb with
    | opener b => exact turn_atOpener hn hs hrest
    | closer b => exact turn_atCloser hs hd hrest
    | letter h =>
      apply turn_atWord hsource hs
      rwa [hrest, byteAt_cons_zero]
    | blank h =>
      rcases eq_of_isBracketBlank h with rfl | rfl
      · have hspace := looked_not_space s
        rw [hrest] at hspace
        cases hspace
      · exact turn_atLineFeed hs hrest

/-! ## Levels -/

/-- The rounds that are left of a level read the rest of its forest, or end with the first violation. -/
theorem rounds_brackets (hsource : ∀ b ∈ source, isBracketByte b = true)
    (hn : NestedReads source d stack nested) (hd : stack.length ≤ d) (hs : s.At source) {fuel : Nat}
    (hfuel : s.cursor.rest.length < fuel) :
    Ends (rounds standardSetup nested (levelOf stack) opened fuel c) s
      (fun c' t => ∃ items, c'.items = items.reverse ++ c.items ∧ Reads source d stack s items t)
      fun f _ => Violates d stack s f := by
  induction fuel generalizing c s with
  | zero => exact absurd hfuel (Nat.not_lt_zero _)
  | succ fuel ih =>
    have hlooked : Leads source d stack s [] s.looked := leads_looked hsource hs
    have hturn : Ends (turn standardSetup nested (levelOf stack) opened c) s _ _ :=
      turn_brackets hsource hn hd hs
    cases hx : turn standardSetup nested (levelOf stack) opened c s with
    | error f t =>
      exact (ends_of_error (bind_of_error hx)).2 (hlooked.violates (hturn.error hx))
    | ok r t =>
      refine Ends.after hx ?_
      cases hturn.ok hx with
      | ended hc h =>
        refine .pure ⟨[], hc, ?_⟩
        exact hlooked.reads [] t h
      | @goesOn c' _ items hc h hlt =>
        have hfuel : t.cursor.rest.length < fuel := by
          have hle := length_looked_le s
          have hlt : t.cursor.rest.length < s.looked.cursor.rest.length := hlt
          omega
        have hleads : Leads source d stack s items t := hlooked.trans h
        have hrounds := ih (c := c') h.place hfuel
        show Ends (rounds standardSetup nested (levelOf stack) opened fuel c') t _ _
        cases hr : rounds standardSetup nested (levelOf stack) opened fuel c' t with
        | error f u => exact (ends_of_error hr).2 (hleads.violates (hrounds.error hr))
        | ok out u =>
          obtain ⟨more, hmore, hreads⟩ := hrounds.ok hr
          refine (ends_of_ok hr).2 ⟨items ++ more, ?_, hleads.reads more u hreads⟩
          rw [hmore, hc, List.reverse_append, List.append_assoc]

theorem levelWith_brackets (hsource : ∀ b ∈ source, isBracketByte b = true)
    (hn : NestedReads source d stack nested) (hd : stack.length ≤ d) (hs : s.At source) {fuel : Nat}
    (hfuel : source.length < fuel) :
    Ends (levelWith standardSetup nested fuel (levelOf stack)) s
      (fun body t => Reads source d stack s body.items t) fun f _ => Violates d stack s f := by
  have hrest : s.cursor.rest.length < fuel := by
    have := hs.length
    omega
  refine Ends.after rfl ?_
  apply (rounds_brackets hsource hn hd hs hrest).bind
  rintro c t ⟨items, hc, h⟩
  have hitems : c.toBlock.items = items := by
    show c.items.reverse = items
    rw [hc, List.reverse_append, List.reverse_reverse]
    rfl
  refine .pure ?_
  rwa [hitems]

end

end

/-- **A level reads the forest up to its closer, or ends with the first violation.** -/
theorem level_brackets {source : Bytes} (hsource : ∀ b ∈ source, isBracketByte b = true)
    {fuel : Nat} (hfuel : source.length < fuel) (room : Nat) (stack : List Bracket) {s : Session}
    (hs : s.At source) :
    Ends (level standardSetup fuel room (levelOf stack)) s
      (fun body t => Reads source (stack.length + room) stack s body.items t)
      fun f _ => Violates (stack.length + room) stack s f := by
  induction room generalizing stack s with
  | zero =>
    refine levelWith_brackets hsource (fun b start u hu hstart hstop => ?_) (Nat.le_refl _) hs hfuel
    show violation _ start stack (b.openByte :: u.cursor.rest) =
      some (.tooDeep, ⟨start, u.cursor.stop⟩)
    have hroom : ¬stack.length < stack.length := Nat.lt_irrefl _
    rw [violation_opener, if_neg hroom, hstop, hstart]
  | succ room ih =>
    refine levelWith_brackets hsource (fun b start u hu hstart hstop => ?_) (Nat.le_add_right _ _) hs
      hfuel
    have hinner := ih (b :: stack) hu
    have hlength : (b :: stack).length + room = stack.length + (room + 1) := by
      rw [List.length_cons]
      omega
    have hroom : stack.length < stack.length + (room + 1) := by omega
    rw [hlength] at hinner
    show Ends (level standardSetup fuel room (.inside b)) u _ _
    cases hx : level standardSetup fuel room (.inside b) u with
    | ok body t => exact (ends_of_ok hx).2 ⟨hroom, hinner.ok hx⟩
    | error f t =>
      refine (ends_of_error hx).2 ?_
      rw [violation_opener, if_pos hroom, ← hstart]
      exact hinner.error hx

end Scan

/-! ## Whole texts -/

/-- Brackets are no byte order mark. -/
theorem byteOrderMarkLength_of_brackets {source : Bytes}
    (hsource : ∀ b ∈ source, isBracketByte b = true) : byteOrderMarkLength source = 0 := by
  cases source with
  | nil => rfl
  | cons b source =>
    have hb := hsource b List.mem_cons_self
    refine byteOrderMarkLength_of_ne ?_
    rintro rfl
    cases hb

/-- **Strict scanning accepts the bracket language exactly.** It succeeds on bracket text if and only
if that spells a forest within the limit, and then the values are the forest that it spells. Otherwise
the fault is the first violation, in its kind and in its place. -/
theorem bracket_language {source : Bytes} (hsource : ∀ b ∈ source, isBracketByte b = true)
    (symbols : SymbolTable) (d : Nat) :
    let scan := transcode source symbols (Options.standard.limited d)
    ((∃ t table, scan = (.ok t, table)) ↔ ∃ f : Forest, f.Spelled source ∧ f.depth ≤ d) ∧
    (∀ t table, scan = (.ok t, table) →
      ∀ f : Forest, f.Spelled source → f.Stands source table t.values.items) ∧
    (∀ failure table, scan = (.error failure, table) →
      violation d 0 [] source = some (failure.fault.kind, failure.fault.span)) := by
  intro scan
  have hmark := byteOrderMarkLength_of_brackets hsource
  have hplace : (Session.start source symbols).At source :=
    ⟨rfl, rfl, byteOrderMarkLength_le source⟩
  have hstart : (Session.start source symbols).cursor.start = 0 := hmark
  have hrest : (Session.start source symbols).cursor.rest = source := by
    show source.drop (byteOrderMarkLength source) = source
    rw [hmark]
    rfl
  have hlevel := level_brackets hsource (Nat.lt_succ_self _) d [] hplace
  rw [List.length_nil, Nat.zero_add] at hlevel
  have hscan : Setup.scan ⟨Options.standard.limited d, .standard⟩ source =
      level standardSetup (source.length + 1) d .top := scan_limited source
  have hfailure (failure : Failure) (table : SymbolTable) (h : scan = (.error failure, table)) :
      violation d 0 [] source = some (failure.fault.kind, failure.fault.span) := by
    obtain ⟨s, hs, -, -⟩ := transcodeWith_eq_error.1 h
    rw [hscan] at hs
    have hviolates := hlevel.error hs
    rwa [Violates, hstart, hrest] at hviolates
  have hsuccess (t : Transcoded) (table : SymbolTable) (h : scan = (.ok t, table)) :
      ∃ f : Forest, f.Spelled source ∧ f.depth ≤ d ∧ f.Stands source table t.values.items := by
    obtain ⟨s, hs, -, rfl⟩ := transcodeWith_eq_ok.1 h
    rw [hscan] at hs
    obtain ⟨f, text, rest, htext, ⟨rfl, -⟩, hspelled, hd, hstands⟩ := (hlevel.ok hs).forest
    rw [hrest, List.append_nil] at htext
    subst htext
    rw [List.length_nil, Nat.zero_add] at hd
    exact ⟨f, hspelled, hd, hstands⟩
  refine ⟨⟨?_, ?_⟩, ?_, hfailure⟩
  · rintro ⟨t, table, h⟩
    obtain ⟨f, hspelled, hd, -⟩ := hsuccess t table h
    exact ⟨f, hspelled, hd⟩
  · rintro ⟨f, hspelled, hd⟩
    have hnone : violation d 0 [] source = none := by
      have h := hspelled.violation_eq 0 (show ([] : List Bracket).length + f.depth ≤ d by
        rwa [List.length_nil, Nat.zero_add]) []
      rw [List.append_nil] at h
      exact h
    cases h : scan with
    | mk result table =>
      cases result with
      | ok t => exact ⟨t, table, rfl⟩
      | error failure =>
        have := hfailure failure table h
        rw [hnone] at this
        cases this
  · intro t table h f hspelled
    obtain ⟨g, hg, -, hstands⟩ := hsuccess t table h
    obtain ⟨rfl, -⟩ := hg.unique hspelled rfl (show Forest.Stops [] from trivial) (show Forest.Stops [] from trivial)
    exact hstands

/-- `[a (b)]` is a forest of depth 2, and with a limit of 1 its paren is one too many. -/
theorem bracket_language_paren :
    (∃ t table, transcode [0x5B, 0x61, 0x20, 0x28, 0x62, 0x29, 0x5D] .initial
        (Options.standard.limited 2) = (.ok t, table) ∧
      Forest.Stands [0x5B, 0x61, 0x20, 0x28, 0x62, 0x29, 0x5D] table
        (.nest .block (.word [0x61] (.nest .paren (.word [0x62] .nil) .nil)) .nil) t.values.items) ∧
    ¬∃ t table, transcode [0x5B, 0x61, 0x20, 0x28, 0x62, 0x29, 0x5D] .initial
      (Options.standard.limited 1) = (.ok t, table) := by
  have hsource : ∀ b ∈ ([0x5B, 0x61, 0x20, 0x28, 0x62, 0x29, 0x5D] : Bytes),
      isBracketByte b = true := List.all_eq_true.1 rfl
  have hparen : Forest.Spelled (.nest .paren (.word [0x62] .nil) .nil) [0x28, 0x62, 0x29] :=
    .nest .paren (.word (by decide) (List.all_eq_true.1 rfl) rfl .nil) .nil
  have hblock : Forest.Spelled (.nest .block (.word [0x61] (.nest .paren (.word [0x62] .nil) .nil)) .nil)
      [0x5B, 0x61, 0x20, 0x28, 0x62, 0x29, 0x5D] :=
    .nest .block (.word (by decide) (List.all_eq_true.1 rfl) rfl (.blank rfl hparen)) .nil
  obtain ⟨haccepts, hvalues, -⟩ := bracket_language hsource .initial 2
  obtain ⟨t, table, h⟩ := haccepts.2 ⟨_, hblock, by decide⟩
  refine ⟨⟨t, table, h, hvalues t table h _ hblock⟩, fun hone => ?_⟩
  obtain ⟨f, hf, hdepth⟩ := (bracket_language hsource .initial 1).1.1 hone
  obtain ⟨rfl, -⟩ := hf.unique hblock rfl (show Forest.Stops [] from trivial) (show Forest.Stops [] from trivial)
  revert hdepth
  decide

end RebolScan
