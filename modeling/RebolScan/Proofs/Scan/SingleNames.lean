import RebolScan.Proofs.Scan.Paths
import RebolScan.Proofs.Scan.PlainNames
import RebolScan.Proofs.Scan.Single

/-!
# Single names and whole scans

A word or an issue can be had by itself or out of a scan, and the two ways go by different code: one
looks at a single lexeme or only at the bytes, the other at everything that a source may hold. **They
agree** (`single_names_agree`): a source is a name by itself if and only if it scans to that name, in
one value that spans all of it.

What is needed of scans is that no round makes a word or an issue of anything but an element that is
one (`Performed.makes`). So whatever word or issue stands at the top was read off its span
(`scanSource_readOff`), and one that spans the source is all that there is (`scanSource_whole`).
-/

set_option autoImplicit false

namespace RebolScan

open Ascii Scan

/-- The element has a name, and with this symbol for it comes to this value. -/
inductive Element.Makes : Element → String → Symbol → Value → Prop
  | word (kind : WordKind) (name : String) (s : Symbol) : Makes (.word kind name) name s (.word kind s)
  | issue (name : String) (s : Symbol) : Makes (.issue name) name s (.issue s)

/-- An item that is a word or an issue is what the bytes of its span are read as. -/
def Item.ReadOff (source : Bytes) (level : Level) (item : Item) : Prop :=
  item.value.isNamed = true → ∃ e name s, e.Makes name s item.value ∧
    Element.of level (source.drop item.span.start) (Lexeme.ofFront (source.drop item.span.start)) =
      ⟨e, item.span.stop - item.span.start⟩

namespace Scan

open Session

variable {setup : Setup} {nested : Nested} {source : Bytes} {l : Level} {opened : Site}
  {c c' : Collected} {s t u : Session} {goesOn : Bool}

/-- **Only an element that has a name comes to a word or an issue.** -/
theorem Performed.makes (hmake : setup.construct = .standard) {r : Element.Reading} {start : Nat}
    {v : Value} (hproper : Element.Proper r) (hnamed : v.isNamed = true)
    (h : Performed setup nested r start s (.value v) t) :
    ∃ name symbol, r.element.Makes name symbol v ∧ t.cursor = s.cursor.advance r.taken := by
  cases h with
  | head he hpath =>
    obtain ⟨segments, u, -, hjoin⟩ := bind_eq_ok.1 hpath
    cases joinPath_eq_ok hjoin <;> cases hnamed
  | consumed h =>
    generalize he : r.element = e at h
    cases h with
    | value =>
      rw [Finder.not_isNamed_of_symbols (hproper.literal v he)] at hnamed
      cases hnamed
    | word kind name => exact ⟨name, _, .word kind name _, rfl⟩
    | issue name => exact ⟨name, _, .issue name _, rfl⟩
    | opener b => cases hnamed
    | construct hc =>
      obtain ⟨spec, u, -, hc⟩ := bind_eq_ok.1 hc
      obtain ⟨hv, -⟩ := construct_eq_ok hc
      rw [hmake] at hv
      rcases valueOf_cases hv with ⟨-, hunnamed⟩ | ⟨body, -, block, fields, -, rfl, -⟩
      · rw [hunnamed] at hnamed
        cases hnamed
      · cases hnamed

/-- A round adds an item that was read off its span. -/
theorem turn_readOff (hmake : setup.construct = .standard) (hstrict : setup.options.relaxed = false)
    (hs : s.At source) (hc : ∀ item ∈ c.items, Item.ReadOff source l item)
    (h : turn setup nested l opened c s = .ok (c', goesOn) t) :
    ∀ item ∈ c'.items, Item.ReadOff source l item := by
  cases turn_adds hstrict h with
  | nothing hitems => rwa [hitems]
  | slot hitems =>
    rw [hitems]
    exact List.forall_mem_cons.2 ⟨Bool.noConfusion, hc⟩
  | value hv hitems =>
    rw [hitems]
    refine List.forall_mem_cons.2 ⟨fun hnamed => ?_, hc⟩
    obtain ⟨name, symbol, hmakes, hcursor⟩ := hv.makes hmake Element.proper_of hnamed
    refine ⟨_, name, symbol, hmakes, ?_⟩
    dsimp only
    rw [hcursor, ← hs.looked.rest]
    dsimp only [Cursor.advance]
    rw [Nat.add_sub_cancel_left]

/-- What holds of each round holds of the levels. -/
theorem known_readOff (hmake : setup.construct = .standard) (hstrict : setup.options.relaxed = false)
    (room : Nat) : Known source (fun l _ c _ => ∀ item ∈ c.items, Item.ReadOff source l item)
      (inside setup (source.length + 1) room) := by
  apply known_always hmake hstrict
  · exact fun _ item hitem => absurd hitem List.not_mem_nil
  · exact fun _ hu hc h => turn_readOff hmake hstrict hu hc h

end Scan

/-! ## Whole scans -/

/-- **A word or an issue at the top of a scan was read off its span.** -/
theorem scanSource_readOff {source : Bytes} {symbols table : SymbolTable} {body : Block}
    (h : scanSource source symbols = (.ok body, table)) :
    ∀ item ∈ body.items, Item.ReadOff source .top item := by
  obtain ⟨s, hs, -⟩ := scanSource_eq_ok.1 h
  obtain ⟨c, rfl, hread⟩ := (known_readOff rfl rfl _).scan hs
  intro item hitem
  exact hread item (List.mem_reverse.1 hitem)

/-- No lexeme with a name is a line. -/
theorem Element.NameOf.kind_ne_line {level : Level} {text : Bytes} {l : Lexeme} {r : Element.Reading}
    (h : NameOf level text l r) (hname : r.element.hasName = true) : l.kind ≠ .line := by
  intro hline
  cases h with
  | word hw hcut =>
    cases hcut with
    | word hk | pathEnd hk | setWord hk | refinement hk =>
      rw [hline] at hk
      cases hk
    | marked hk | markedEnd hk =>
      rw [hline] at hk
      rcases hk with ⟨hk, -⟩ | ⟨hk, -⟩ <;> cases hk
  | issue hw hk =>
    rw [hline] at hk
    cases hk
  | other h =>
    rw [hname] at h
    cases h

section

variable {e : Element} {name : String} {v : Value} {s : Symbol} {text : Bytes}

theorem Element.Makes.hasName (h : e.Makes name s v) : e.hasName = true := by
  cases h <;> rfl

theorem Element.makes_word {kind : WordKind} {s' : Symbol} :
    e.Makes name s (.word kind s') ↔ e = .word kind name ∧ s' = s := by
  constructor
  · intro h
    cases h
    exact ⟨rfl, rfl⟩
  · rintro ⟨rfl, rfl⟩
    exact .word kind name _

theorem Element.makes_issue {s' : Symbol} :
    e.Makes name s (.issue s') ↔ e = .issue name ∧ s' = s := by
  constructor
  · intro h
    cases h
    exact ⟨rfl, rfl⟩
  · rintro ⟨rfl, rfl⟩
    exact .issue name _

/-- It makes a value of any symbol. -/
theorem Element.Makes.exists (h : e.Makes name s v) (s' : Symbol) : ∃ v', e.Makes name s' v' := by
  cases h with
  | word kind => exact ⟨_, .word kind name s'⟩
  | issue => exact ⟨_, .issue name s'⟩

/-- What is read as a name starts with no space. -/
theorem not_space_of_hasName {level : Level}
    (h : (Element.of level text (Lexeme.ofFront text)).element.hasName = true) :
    isSpace (byteAt text 0) = false := by
  by_contra hspace
  rw [Bool.not_eq_false, isSpace, beq_iff_eq] at hspace
  refine (Element.nameOf_of level text (Lexeme.ofFront text)).kind_ne_line h ?_
  rw [Lexeme.ofFront, hspace]
  exact Lexeme.comment_kind text

/-- A source that is one name scans to that, and the name is interned. -/
theorem scanSource_name {source : Bytes} {symbols : SymbolTable}
    (htext : source.drop (byteOrderMarkLength source) = text)
    (h : Element.of .top text (Lexeme.ofFront text) = ⟨e, text.length⟩)
    (hmakes : e.Makes name (symbols.intern name).1 v) :
    scanSource source symbols =
      (.ok ⟨[⟨v, false, ⟨byteOrderMarkLength source, source.length⟩⟩], false⟩,
        (symbols.intern name).2) := by
  have hname : (Element.of .top text (Lexeme.ofFront text)).element.hasName = true := by
    rw [h]
    exact hmakes.hasName
  refine scanSource_whole htext (not_space_of_hasName hname) ?_ h fun nested start s hs => ?_
  · rintro rfl
    rw [Element.of_end] at hname
    cases hname
  · subst hs
    cases hmakes <;> rfl

/-- **A source scans to one word or issue that spans it if and only if it is read as that**, and the
table that the scan leaves has its name interned and nothing else. -/
theorem scanSource_named {source : Bytes} {symbols table : SymbolTable}
    (htext : source.drop (byteOrderMarkLength source) = text) (hnamed : v.isNamed = true) :
    (∃ body item, scanSource source symbols = (.ok body, table) ∧ body.items = [item] ∧
      item.value = v ∧ item.span = ⟨byteOrderMarkLength source, source.length⟩) ↔
    ∃ e name, Element.of .top text (Lexeme.ofFront text) = ⟨e, text.length⟩ ∧
      e.Makes name (symbols.intern name).1 v ∧ table = (symbols.intern name).2 := by
  constructor
  · rintro ⟨body, item, h, hitems, rfl, hspan⟩
    have hread := scanSource_readOff h item (by rw [hitems]; exact List.mem_singleton_self _)
    obtain ⟨e, name, s, hmakes, hof⟩ := hread hnamed
    have hlength : source.length - byteOrderMarkLength source = text.length := by
      rw [← htext, List.length_drop]
    rw [hspan] at hof
    dsimp only at hof
    rw [htext, hlength] at hof
    -- What the scan comes to is known from the element, so the symbol is the one that its name has.
    obtain ⟨v', hmakes'⟩ := hmakes.exists (symbols.intern name).1
    have hscan := scanSource_name htext hof hmakes'
    rw [h] at hscan
    obtain ⟨hbody, rfl⟩ := Prod.mk.inj hscan
    cases hbody
    cases hitems
    exact ⟨e, name, hof, hmakes', rfl⟩
  · rintro ⟨e, name, hof, hmakes, rfl⟩
    exact ⟨_, _, scanSource_name htext hof hmakes, rfl, rfl, rfl⟩

/-! ## Single names -/

/-- A text is read as one word if its lexeme is a word of all its bytes and they are UTF-8. -/
theorem of_wholeWord : Element.of .top text (Lexeme.ofFront text) = ⟨.word .word name, text.length⟩ ↔
    (Lexeme.ofFront text).isWholeWord text.length = true ∧ Utf8.decode? text = some name := by
  have hall : between text 0 text.length = text := by
    rw [between, List.drop_zero, Nat.sub_zero, List.take_length]
  have hnameOf := Element.nameOf_of .top text (Lexeme.ofFront text)
  constructor
  · intro h
    rw [h] at hnameOf
    generalize Lexeme.ofFront text = l at hnameOf
    generalize htaken : text.length = taken at hnameOf
    cases hnameOf with
    | word hw hcut hlt hname =>
      cases hcut with
      | word hk =>
        rw [← htaken, hall] at hname
        rw [← hname, Utf8.decode?_encode]
        simp [Lexeme.isWholeWord, hw, hk]
      | pathEnd hk hl => cases hl
      | marked hk | markedEnd hk => simp at hk
    | other h => cases h
  · rintro ⟨hwhole, hdecode⟩
    simp only [Lexeme.isWholeWord, Bool.and_eq_true, Bool.not_eq_true', beq_iff_eq] at hwhole
    obtain ⟨⟨hw, hk⟩, hlength⟩ := hwhole
    have hpos : 0 < text.length := by
      refine List.length_pos_iff.2 ?_
      rintro rfl
      cases hk
    have hslash : byteAt text (Lexeme.ofFront text).length ≠ slash := by
      intro hs
      rw [hlength] at hs
      exact absurd (lt_length_of_byteAt (by rw [hs]; decide)) (Nat.lt_irrefl text.length)
    rw [Element.of_lexeme hw (.inr (.inr hslash)) (.inl Level.noConfusion), Element.ofLexeme, hk]
    dsimp only
    rw [hlength, Element.wordFrom, if_neg (Nat.not_le.2 hpos), hall, hdecode]

/-- A text is read as one issue if it is a pound sign and a name that an issue may have. -/
theorem of_wholeIssue {w : Bytes} :
    Element.of .top (pound :: w) (Lexeme.ofFront (pound :: w)) = ⟨.issue name, (pound :: w).length⟩ ↔
      Literal.isIssueText w = true ∧ Utf8.decode? w = some name := by
  constructor
  · intro h
    have hnameOf := Element.nameOf_of .top (pound :: w) (Lexeme.ofFront (pound :: w))
    rw [h] at hnameOf
    generalize Lexeme.ofFront (pound :: w) = l at hnameOf
    generalize htaken : (pound :: w).length = taken at hnameOf
    cases hnameOf with
    | issue hw hk htext hname =>
      have hall : between (pound :: w) 1 l.length = w := by
        rw [← htaken]
        exact List.take_length
      rw [hall] at htext hname
      exact ⟨htext, by rw [← hname, Utf8.decode?_encode]⟩
    | other h => cases h
  · rintro ⟨htext, hdecode⟩
    have hname := Utf8.encode_of_decode? hdecode
    subst hname
    have hof : Element.of .top (pound :: (Utf8.encode name ++ []))
        (Lexeme.ofFront (pound :: (Utf8.encode name ++ []))) =
          ⟨.issue name, (Utf8.encode name).length + 1⟩ :=
      Element.of_issue Level.noConfusion htext rfl
    rwa [List.append_nil] at hof

/-- What is a word by itself is read as one. -/
theorem scanWord_eq_some {source : Bytes} {symbols table : SymbolTable}
    (htext : source.drop (byteOrderMarkLength source) = text) :
    scanWord source symbols = (some s, table) ↔
      ∃ name, Element.of .top text (Lexeme.ofFront text) = ⟨.word .word name, text.length⟩ ∧
        s = (symbols.intern name).1 ∧ table = (symbols.intern name).2 := by
  cases hspace : isSpace (byteAt text 0) with
  | true =>
    refine iff_of_false (fun h => ?_) ?_
    · rw [scanWord_of_space symbols (by rwa [htext])] at h
      cases h
    · rintro ⟨name, hof, -⟩
      have hnot : isSpace (byteAt text 0) = false := not_space_of_hasName (by rw [hof]; rfl)
      rw [hspace] at hnot
      cases hnot
  | false =>
    simp only [of_wholeWord]
    rw [scanWord_eq symbols htext hspace]
    cases (Lexeme.ofFront text).isWholeWord text.length with
    | false => simp
    | true =>
      cases Utf8.decode? text with
      | none => simp
      | some name => simp [eq_comm]

/-- What can name an issue is read as one behind a pound sign. -/
theorem scanIssue_eq_some {w : Bytes} {symbols table : SymbolTable} :
    scanIssue w symbols = (some s, table) ↔
      ∃ name, Element.of .top (pound :: w) (Lexeme.ofFront (pound :: w)) =
          ⟨.issue name, (pound :: w).length⟩ ∧
        s = (symbols.intern name).1 ∧ table = (symbols.intern name).2 := by
  simp only [of_wholeIssue]
  unfold scanIssue
  cases Literal.isIssueText w with
  | false => simp
  | true =>
    cases Utf8.decode? w with
    | none => simp
    | some name => simp [eq_comm]

end

/-- **The single names agree with the scans of whole sources.** A source is a plain word by itself if
and only if it scans to that word alone, from behind a byte order mark to its end; and it names an issue
if and only if, with a pound sign in front, it scans to that issue alone. Symbol and table are the
same. -/
theorem single_names_agree (source : Bytes) (symbols table : SymbolTable) (s : Symbol) :
    (scanWord source symbols = (some s, table) ↔
      ∃ body item, scanSource source symbols = (.ok body, table) ∧ body.items = [item] ∧
        item.value = .word .word s ∧ item.span = ⟨byteOrderMarkLength source, source.length⟩) ∧
    (scanIssue source symbols = (some s, table) ↔
      ∃ body item, scanSource (pound :: source) symbols = (.ok body, table) ∧ body.items = [item] ∧
        item.value = .issue s ∧ item.span = ⟨0, (pound :: source).length⟩) := by
  have hmark : byteOrderMarkLength (pound :: source) = 0 :=
    byteOrderMarkLength_of_ne (show pound ≠ 0xEF by decide)
  have htext : (pound :: source).drop (byteOrderMarkLength (pound :: source)) = pound :: source := by
    rw [hmark]
    rfl
  have hspan : (⟨0, (pound :: source).length⟩ : Span) =
      ⟨byteOrderMarkLength (pound :: source), (pound :: source).length⟩ := by
    rw [hmark]
  constructor
  · rw [scanSource_named rfl rfl, scanWord_eq_some rfl]
    simp only [Element.makes_word]
    constructor
    · rintro ⟨name, hof, hs, ht⟩
      exact ⟨_, name, hof, ⟨rfl, hs⟩, ht⟩
    · rintro ⟨_, name, hof, ⟨rfl, hs⟩, ht⟩
      exact ⟨name, hof, hs, ht⟩
  · rw [hspan, scanSource_named htext rfl, scanIssue_eq_some]
    simp only [Element.makes_issue]
    constructor
    · rintro ⟨name, hof, hs, ht⟩
      exact ⟨_, name, hof, ⟨rfl, hs⟩, ht⟩
    · rintro ⟨_, name, hof, ⟨rfl, hs⟩, ht⟩
      exact ⟨name, hof, hs, ht⟩

end RebolScan
