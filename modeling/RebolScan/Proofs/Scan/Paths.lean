import RebolScan.Proofs.Scan.Names
import RebolScan.Proofs.Scan.Reading
import RebolScan.Proofs.Scan.Strict
import RebolScan.Proofs.Value.Paths

/-!
# The paths of a strict scan

A path is found by the slash behind its head, and the head is read again as its first segment. Behind
each segment a slash means another one, so **every path of a strict scan has two segments at least,
and the form of one** (`transcode_paths`). There is one way out: the head `'a:` of a lit-path gives
its colon back when it is read again, and then a colon follows the first segment and not the slash.
The path is cut there. What it leaves, `:/`, no scan gets past, so only a scan that stops after its
first value returns with it.

A path level keeps `PathSoFar` between its rounds beside `PathTiling`, which knows that a segment is
next; any other level keeps `Formed`. Of the levels inside they need `Pather`.
-/

set_option autoImplicit false

namespace RebolScan

open Ascii Scan

/-- A lit-path that was cut behind its first segment. -/
def Value.IsCut (v : Value) : Prop :=
  ∃ segment name tailLine, v = .block .litPath ⟨[segment], tailLine⟩ ∧ segment.value = .word .word name

/-- A colon and a slash are next. -/
def Session.BeforeColonSlash (s : Session) : Prop :=
  byteAt s.cursor.rest 0 = colon ∧ byteAt s.cursor.rest 1 = slash

/-- What is collected first in a path whose head is a token of `kind`. -/
inductive FirstSegment : TokenKind → Value → Prop
  | slot {kind : TokenKind} (h : kind = .word ∨ kind = .refinement) : FirstSegment kind .none
  | word (name : Symbol) : FirstSegment .word (.word .word name)
  | getWord (name : Symbol) : FirstSegment .getWord (.word .getWord name)
  | litWord (name : Symbol) : FirstSegment .litWord (.word .litWord name)

namespace Scan

open Session

variable {setup : Setup} {nested : Nested} {source : Bytes} {s t u : Session} {kind : TokenKind}

/-- The segments of a path of which the head is a token of `kind`, and where they end: there are two
at least, or one in front of a colon and a slash. -/
inductive Segmented (kind : TokenKind) : List Item → Session → Prop
  | mk {first : Item} {rest : List Item} {t : Session} (hfirst : FirstSegment kind first.value)
      (hrest : ∀ item ∈ rest, item.value.IsSegment ∧ item.value.PathsFormed)
      (hend : rest ≠ [] ∨ ((kind = .getWord ∨ kind = .litWord) ∧ t.BeforeColonSlash)) :
      Segmented kind (first :: rest) t

/-- What the levels inside are taken to collect. -/
structure Pather (source : Bytes) (nested : Nested) : Prop where
  inside : ∀ {b : Bracket} {start : Nat} {s t : Session} {body : Block}, s.At source →
    nested (.inside b) start s = .ok body t → ∀ item ∈ body.items, item.value.PathsFormed
  path : ∀ {level : Level} {kind : TokenKind} {r : Element.Reading} {start : Nat} {s t : Session}
    {segments : Block}, s.At source → Element.Reads level s.cursor.rest r →
    r.element = .pathHead kind → nested .path start s = .ok segments t →
      Segmented kind segments.items t ∧ t.cursor.stop = t.cursor.start ∧
        ∀ kind' n, (s.reading .path).element ≠ .invalid kind' n

/-! ## What segments are joined to -/

/-- The form that a path gets from its first segment and the kind of its head, and what it makes of that
segment: a get-path and a lit-path take over its mark. -/
inductive Headed : TokenKind → Value → BlockKind → Value → Prop
  | slot {kind : TokenKind} {form : BlockKind} (hk : kind = .word ∨ kind = .refinement)
      (hform : form = .path ∨ form = .setPath) : Headed kind .none form .none
  | word {form : BlockKind} (name : Symbol) (hform : form = .path ∨ form = .setPath) :
      Headed .word (.word .word name) form (.word .word name)
  | getPath (name : Symbol) : Headed .getWord (.word .getWord name) .getPath (.word .word name)
  | litPath (name : Symbol) : Headed .litWord (.word .litWord name) .litPath (.word .word name)

theorem Headed.heads {form : BlockKind} {first head : Value} (h : Headed kind first form head) :
    head.Heads form := by
  cases h with
  | slot hk hform =>
    rcases hform with rfl | rfl
    · exact .path
    · exact .setPath
  | word name | getPath name | litPath name => exact .word _ name

/-- **The path of its segments**: its form goes by the first one. Behind a get-path stands no colon. -/
theorem Joins.headed {first : Item} {rest : List Item} {tailLine : Bool} {v : Value}
    (hfirst : FirstSegment kind first.value) (h : Joins kind ⟨first :: rest, tailLine⟩ s v t) :
    ∃ form head, Headed kind first.value form head ∧
      v = .block form ⟨{ first with value := head } :: rest, tailLine⟩ ∧ t.symbols = s.symbols ∧
      (form = .litPath → t = s) ∧
      (form = .getPath → byteAt s.cursor.rest (s.cursor.stop - s.cursor.start) ≠ colon) := by
  obtain ⟨value, line, span⟩ := first
  have hget {kind' : WordKind} {name : Symbol} (hvalue : value = .word kind' name) :
      StartsGet ⟨⟨value, line, span⟩ :: rest, tailLine⟩ ↔ kind' = .getWord := by
    subst hvalue
    simp [StartsGet, Value.word?]
  cases hfirst with
  | slot hk =>
    cases h with
    | litPath hh => rcases hk with rfl | rfl <;> cases hh
    | getPath hh hg => cases hg.choose_spec
    | path => exact ⟨.path, .none, .slot hk (.inl rfl), rfl, rfl, BlockKind.noConfusion,
        BlockKind.noConfusion⟩
    | setPath => exact ⟨.setPath, .none, .slot hk (.inr rfl), rfl, rfl, BlockKind.noConfusion,
        BlockKind.noConfusion⟩
  | word name =>
    cases h with
    | litPath hh => cases hh
    | getPath hh hg => cases (hget rfl).1 hg
    | path => exact ⟨.path, _, .word name (.inl rfl), rfl, rfl, BlockKind.noConfusion,
        BlockKind.noConfusion⟩
    | setPath => exact ⟨.setPath, _, .word name (.inr rfl), rfl, rfl, BlockKind.noConfusion,
        BlockKind.noConfusion⟩
  | getWord name =>
    cases h with
    | litPath hh => cases hh
    | getPath hh hg hc => exact ⟨.getPath, _, .getPath name, rfl, rfl, BlockKind.noConfusion, fun _ => hc⟩
    | path hh hg | setPath hh hg => exact absurd ((hget rfl).2 rfl) hg
  | litWord name =>
    cases h with
    | litPath => exact ⟨.litPath, _, .litPath name, rfl, rfl, fun _ => rfl, BlockKind.noConfusion⟩
    | getPath hh | path hh | setPath hh => exact absurd rfl hh

/-- It has the form of a path, or it is a lit-path that was cut. -/
theorem Joins.pathsFormed {segments : Block} {v : Value} (hstop : s.cursor.stop = s.cursor.start)
    (hsegments : Segmented kind segments.items s) (h : Joins kind segments s v t) :
    v.PathsFormed ∨ (v.IsCut ∧ t.BeforeColonSlash) := by
  obtain ⟨items, tailLine⟩ := segments
  obtain ⟨hfirst, hrest, hend⟩ := hsegments
  rename_i first rest
  obtain ⟨value, line, span⟩ := first
  obtain ⟨form, head, hheaded, rfl, -, hlit, hget⟩ := h.headed hfirst
  rw [hstop, Nat.sub_self] at hget
  have hscalar : head.isScalar = true ∧ ∀ name, head ≠ .word .setWord name := by
    cases hheaded with
    | slot | word | getPath | litPath => exact ⟨rfl, fun name hv => by cases hv⟩
  by_cases hne : rest ≠ []
  · refine .inl (Value.pathsFormed_block (fun _ => ⟨?_, ?_, ?_⟩) ?_)
    · cases rest with
      | nil => exact absurd rfl hne
      | cons second rest => simp
    · intro item hitem
      cases hitem
      exact hheaded.heads
    · intro item hitem
      rcases List.mem_cons.1 hitem with rfl | hitem
      · refine ⟨hscalar.2, fun kind body hv => ?_⟩
        have := hscalar.1
        rw [show head = _ from hv] at this
        cases this
      · exact (hrest item hitem).1
    · intro item hitem
      rcases List.mem_cons.1 hitem with rfl | hitem
      · exact Value.pathsFormed_of_isScalar hscalar.1
      · exact (hrest item hitem).2
  · -- One segment alone stands in front of a colon and a slash, and only a lit-path lets that be.
    obtain ⟨hk, hcut⟩ := hend.resolve_left hne
    obtain rfl : rest = [] := by simpa using hne
    cases hheaded with
    | slot hk' => rcases hk with rfl | rfl <;> simp at hk'
    | word => simp at hk
    | getPath => exact absurd hcut.1 (hget rfl)
    | litPath name =>
      obtain rfl := hlit rfl
      exact .inr ⟨⟨_, name, tailLine, rfl, rfl⟩, hcut⟩

/-! ## What an element comes to -/

section

variable (hn : Pather source nested) (hmake : setup.construct = .standard)

include hn hmake

/-- What is consumed before the levels inside are read is no path itself. -/
theorem CarriedOut.pathsFormed {level : Level} {r : Element.Reading} {start : Nat} {v : Value}
    (hs : s.At source) (hr : Element.Reads level s.cursor.rest r)
    (h : CarriedOut setup nested start { s with cursor := s.cursor.advance r.taken } r.element
      (.value v) t) : v.PathsFormed := by
  have hu := hs.advance (h.taken_bounds hr).2
  generalize he : r.element = e at h
  cases h with
  | value => exact Value.pathsFormed_of_isScalar (hr.isScalar_of_value he)
  | word kind name => exact Value.pathsFormed_of_isScalar rfl
  | issue name => exact Value.pathsFormed_of_isScalar rfl
  | opener b hbody =>
    refine Value.pathsFormed_block (fun hpath => ?_) (hn.inside hu hbody)
    cases b <;> cases hpath
  | construct hc =>
    obtain ⟨spec, w, hspec, hc⟩ := bind_eq_ok.1 hc
    obtain ⟨hv, -⟩ := construct_eq_ok hc
    rw [hmake] at hv
    have hitems := hn.inside hu hspec
    rcases valueOf_cases hv with ⟨hscalar, -⟩ | ⟨body, hbody, block, fields, hvalue, rfl, hfields⟩
    · exact Value.pathsFormed_of_isScalar hscalar
    · have hformed := hitems body hbody
      rw [hvalue] at hformed
      exact Value.pathsFormed_object fun name item hmem => hformed.item (hfields name item hmem)

/-- An element comes to a value in which every path has the form of one, or is a lit-path that was
cut. -/
theorem Performed.pathsFormed {level : Level} {r : Element.Reading} {v : Value} (hs : s.At source)
    (hr : Element.Reads level s.cursor.rest r)
    (h : Performed setup nested r s.cursor.start s (.value v) t) :
    v.PathsFormed ∨ (v.IsCut ∧ t.BeforeColonSlash) := by
  cases h with
  | head he hpath =>
    obtain ⟨segments, w, hsegments, hjoin⟩ := bind_eq_ok.1 hpath
    obtain ⟨hsegmented, hstop, -⟩ := hn.path hs hr he hsegments
    exact (joinPath_eq_ok hjoin).pathsFormed hstop hsegmented
  | consumed h => exact .inl (h.pathsFormed hn hmake hs hr)

/-- At the level of a path an element comes to a segment. -/
theorem Performed.isSegment {r : Element.Reading} {v : Value}
    (hs : s.At source) (hr : Element.Reads .path s.cursor.rest r) (hproper : Element.Proper r)
    (hnamed : Element.Named .path r) (hsegment : r.element.isSegment = true)
    (h : Performed setup nested r s.cursor.start s (.value v) t) :
    v.IsSegment ∧ v.PathsFormed := by
  cases h with
  | head he =>
    rw [he] at hsegment
    cases hsegment
  | consumed h =>
    refine ⟨?_, h.pathsFormed hn hmake hs hr⟩
    generalize he : r.element = e at h
    cases h with
    | value =>
      exact Value.isSegment_of_isScalar (hr.isScalar_of_value he)
        (Value.word?_eq_none (Finder.not_isNamed_of_symbols (hproper.literal v he)))
    | word kind name =>
      constructor
      · intro s hv
        cases hv
        exact absurd rfl ((hnamed _ _ he).2 rfl)
      · intro kind' body hv
        cases hv
    | issue name => exact Value.isSegment_of_isScalar rfl rfl
    | opener b hbody =>
      constructor
      · intro s hv
        cases hv
      · intro kind body hv
        cases hv
        cases b with
        | paren => rfl
        | block =>
          rw [he] at hsegment
          cases hsegment
    | construct hc =>
      obtain ⟨spec, w, hspec, hc⟩ := bind_eq_ok.1 hc
      obtain ⟨hv, -⟩ := construct_eq_ok hc
      rw [hmake] at hv
      rcases valueOf_cases hv with ⟨hscalar, hnamed⟩ | ⟨body, -, block, fields, -, rfl, -⟩
      · exact Value.isSegment_of_isScalar hscalar (Value.word?_eq_none hnamed)
      · constructor
        · intro s hv
          cases hv
        · intro kind body hv
          cases hv

end

/-! ## Rounds of a path -/

/-- Between two rounds of a path whose head is a token of `kind` and is next in `s₀`: nothing has been
read, or the first segment and others behind it. -/
inductive PathSoFar (kind : TokenKind) (s₀ : Session) (c : Collected) (s : Session) : Prop
  | opened (hitems : c.items = []) (hrest : s.cursor.rest = s₀.cursor.rest) : PathSoFar kind s₀ c s
  | went {first : Item} {rest : List Item} (hitems : c.items.reverse = first :: rest)
      (hvalid : ∀ kind' n, (s₀.reading .path).element ≠ .invalid kind' n)
      (hfirst : FirstSegment kind first.value)
      (hrest : ∀ item ∈ rest, item.value.IsSegment ∧ item.value.PathsFormed) :
      PathSoFar kind s₀ c s

/-- A word is collected as a word of its kind, and what follows its bytes is next. -/
theorem Performed.of_word {wordKind : WordKind} {name : String} {n start : Nat} {v : Value}
    (h : Performed setup nested ⟨.word wordKind name, n⟩ start s (.value v) t) :
    (∃ symbol, v = .word wordKind symbol) ∧ t.cursor.stop = t.cursor.start ∧
      ∀ i, byteAt t.cursor.rest i = byteAt s.cursor.rest (n + i) := by
  cases h with
  | head he => cases he
  | consumed h =>
    cases h with
    | word => exact ⟨⟨_, rfl⟩, rfl, fun i => byteAt_drop _ _ _⟩

/-- A path goes on behind a word that a slash follows, and is cut behind one that a colon and a slash
follow. -/
theorem goesOn_or_cut {text : Bytes} {n : Nat} {goesOn : Bool}
    (hbehind : u.cursor.stop = u.cursor.start ∧ ∀ i, byteAt u.cursor.rest i = byteAt text (n + i))
    (hnext : byteAt text n = slash ∨ (byteAt text n = colon ∧ byteAt text (n + 1) = slash))
    (hparted : Parted u goesOn t) : goesOn = true ∨ t.BeforeColonSlash := by
  obtain ⟨hstop, hbyte⟩ := hbehind
  rcases hparted.settled hstop with ⟨-, rfl, hne⟩ | ⟨hgo, -⟩
  · rw [hbyte, Nat.add_zero] at hne
    obtain ⟨hcolon, hslash⟩ := hnext.resolve_left hne
    exact .inr ⟨(hbyte 0).trans hcolon, (hbyte 1).trans hslash⟩
  · exact .inl hgo

/-- The first round of a path reads its head again. -/
theorem path_turn_first (hstrict : setup.options.relaxed = false) {s₀ : Session} {level : Level}
    {r : Element.Reading} (hr : Element.Reads level s₀.cursor.rest r)
    (he : r.element = .pathHead kind) {a : Nat} {opened : Site} {c c' : Collected} {goesOn : Bool}
    (hc : PathTiling source a c s) (hitems : c.items = [])
    (hrest : s.cursor.rest = s₀.cursor.rest)
    (h : turn setup nested .path opened c s = .ok (c', goesOn) t) :
    (∀ kind' n, (s₀.reading .path).element ≠ .invalid kind' n) ∧
      ∃ first, c'.items = [first] ∧ FirstSegment kind first.value ∧
        (goesOn = true ∨ ((kind = .getWord ∨ kind = .litWord) ∧ t.BeforeColonSlash)) := by
  have hstarts := hr.of_pathHead he
  have hlooked : s.looked.cursor.rest = s₀.cursor.rest := by
    rw [← hrest] at hstarts ⊢
    exact looked_rest_of_startsSegment hstarts
  have hsame : s₀.reading .path = s.reading .path := by
    rw [reading, reading, hlooked, looked_rest_of_startsSegment hstarts]
  have hreads : Element.FirstReads s.looked.cursor.rest kind (s.reading .path) := by
    rw [reading, hlooked]
    exact Element.firstReads_of hr he
  have hitem (item : Item) : item :: c.items = [item] := by rw [hitems]
  rw [hsame]
  rcases segment_strict hstrict ((s.reading_reads .path).of_segment hc.looked.starts) h with
    ⟨hperform, rfl, rfl⟩ | ⟨v, u, hperform, rfl, hparted⟩
  · have hslot := hperform.of_slot.1
    refine ⟨hperform.ne_invalid, _, hitem _, ?_, .inl rfl⟩
    · generalize s.reading .path = r' at hreads hslot
      cases hreads with
      | slot hk => exact .slot hk
      | _ => cases hslot
  · refine ⟨hperform.ne_invalid, _, hitem _, ?_⟩
    generalize s.reading .path = r' at hreads hperform
    -- The byte behind a word is one that was seen there, and it tells whether the path goes on.
    cases hreads with
    | slot =>
      cases hperform with
      | head he' => cases he'
      | consumed hcarried => cases hcarried
    | word name n hslash =>
      obtain ⟨⟨symbol, rfl⟩, hstop, hbyte⟩ := hperform.of_word
      refine ⟨.word symbol, .inl ?_⟩
      rcases hparted.settled hstop with ⟨-, -, hne⟩ | ⟨hgo, -⟩
      · rw [hbyte, Nat.add_zero] at hne
        exact absurd hslash hne
      · exact hgo
    | getWord name n hnext =>
      obtain ⟨⟨symbol, rfl⟩, hbehind⟩ := hperform.of_word
      exact ⟨.getWord symbol, (goesOn_or_cut hbehind hnext hparted).imp_right fun h => ⟨.inl rfl, h⟩⟩
    | litWord name n hnext =>
      obtain ⟨⟨symbol, rfl⟩, hbehind⟩ := hperform.of_word
      exact ⟨.litWord symbol, (goesOn_or_cut hbehind hnext hparted).imp_right fun h => ⟨.inr rfl, h⟩⟩
    | invalid => exact absurd rfl (hperform.ne_invalid _ _)

section

variable (hn : Pather source nested) (hmake : setup.construct = .standard)
  (hstrict : setup.options.relaxed = false)

include hn hmake hstrict

/-- A later round adds a segment. -/
theorem path_turn_later {a : Nat} {opened : Site} {c c' : Collected} {goesOn : Bool}
    (hc : PathTiling source a c s) (hitems : c.items ≠ [])
    (h : turn setup nested .path opened c s = .ok (c', goesOn) t) :
    ∃ item, c'.items = item :: c.items ∧ item.value.IsSegment ∧ item.value.PathsFormed := by
  have hread := s.reading_reads .path
  have hlooked := hc.looked
  have hsegment := hread.of_segment hlooked.starts
  rcases segment_strict hstrict hsegment h with ⟨hperform, -⟩ | ⟨v, u, hperform, rfl, -⟩
  · exact absurd (hlooked.of_slash (hread.of_slot hperform.of_slot.1).2.1).1 hitems
  · exact ⟨_, rfl, hperform.isSegment hn hmake hlooked.place hread Element.proper_of
      (Element.named_of _ _) hsegment⟩

/-- **A round of a path leaves what is so far collected of one, or ends it.** -/
theorem path_turn_segmented {s₀ : Session} {level : Level} {r : Element.Reading}
    (hr : Element.Reads level s₀.cursor.rest r) (he : r.element = .pathHead kind) {a : Nat}
    {opened : Site} {c c' : Collected} {goesOn : Bool} (hc : PathTiling source a c s)
    (hsofar : PathSoFar kind s₀ c s) (h : turn setup nested .path opened c s = .ok (c', goesOn) t) :
    (goesOn = true ∧ PathSoFar kind s₀ c' t) ∨
      (goesOn = false ∧ Segmented kind c'.items.reverse t ∧
        ∀ kind' n, (s₀.reading .path).element ≠ .invalid kind' n) := by
  cases hsofar with
  | opened hitems hrest =>
    obtain ⟨hvalid, first, hadds, hfirst, hend⟩ := path_turn_first hstrict hr he hc hitems hrest h
    cases goesOn with
    | true => exact .inl ⟨rfl, .went (congrArg List.reverse hadds) hvalid hfirst (by simp)⟩
    | false =>
      refine .inr ⟨rfl, ?_, hvalid⟩
      rw [hadds]
      exact .mk hfirst (by simp) (.inr (hend.resolve_left Bool.noConfusion))
  | went hitems hvalid hfirst hrest =>
    rename_i first rest
    have hne : c.items ≠ [] := by
      intro hnil
      rw [hnil] at hitems
      cases hitems
    obtain ⟨item, hadds, hitem⟩ := path_turn_later hn hmake hstrict hc hne h
    have hall : c'.items.reverse = first :: (rest ++ [item]) := by
      rw [hadds, List.reverse_cons, hitems, List.cons_append]
    have hsegments : ∀ later ∈ rest ++ [item], later.value.IsSegment ∧ later.value.PathsFormed := by
      intro later hlater
      rcases List.mem_append.1 hlater with hlater | hlater
      · exact hrest later hlater
      · rw [List.mem_singleton.1 hlater]
        exact hitem
    cases goesOn with
    | true => exact .inl ⟨rfl, .went hall hvalid hfirst hsegments⟩
    | false =>
      refine .inr ⟨rfl, ?_, hvalid⟩
      rw [hall]
      exact .mk hfirst hsegments (.inl (by simp))

end

/-! ## Rounds of any other level -/

/-- Between two rounds of a level that is no path: every path in what it has collected is well
formed, or the newest item is a lit-path that was cut just now. -/
inductive Formed (c : Collected) (s : Session) : Prop
  | whole (h : ∀ item ∈ c.items, item.value.PathsFormed) : Formed c s
  | cut {item : Item} (hitem : item ∈ c.items) (hcut : item.value.IsCut) (hnext : s.BeforeColonSlash) :
      Formed c s

/-- How a round left such a level. Only the top can stop behind a path that was cut. -/
inductive FormedTurn (setup : Setup) (source : Bytes) (level : Level) (c : Collected) :
    Collected → Bool → Session → Prop
  | goesOn {c' : Collected} {t : Session} (ht : t.At source) (h : Formed c' t)
      (hadds : level = .top → setup.options.stopsAfterValue = true → c'.items = c.items) :
      FormedTurn setup source level c c' true t
  | ended {c' : Collected} {t : Session} (h : ∀ item ∈ c'.items, item.value.PathsFormed) :
      FormedTurn setup source level c c' false t
  | stopped {c' : Collected} {t : Session} {item : Item} (hl : level = .top)
      (hstops : setup.options.stopsAfterValue = true) (hadds : c'.items = item :: c.items)
      (hcut : item.value.IsCut) (ht : t.At source) (hnext : t.BeforeColonSlash) :
      FormedTurn setup source level c c' false t

/-- A colon in front of a slash is a get-word without a name. -/
theorem ofFront_colon_slash (rest : Bytes) :
    Lexeme.ofFront (colon :: slash :: rest) = Lexeme.good .getWord 1 := by
  have hof : Front.of (colon :: slash :: rest) = ⟨colon :: slash :: rest, [colon], Marks.none⟩ := rfl
  have hclass : ByteClass.of (byteAt (colon :: slash :: rest) 0) = .special .colon := rfl
  have hnone (special : Special) : Marks.none.has special = false := by cases special <;> rfl
  have hnumber : isNumber slash = false := rfl
  have hword : Marks.none.isOnlyWord = false := rfl
  rw [Lexeme.ofFront, hclass]
  simp [Lexeme.special, Lexeme.colonForm, Lexeme.wordTail, Lexeme.wordTail.marked, hof, Front.has,
    hnone, Front.byte, Marks.hasAny, hnumber, hword, Front.stop, slash, tick, lesser, greater]

section

variable (hn : Pather source nested) (hmake : setup.construct = .standard)
  (hstrict : setup.options.relaxed = false)

include hn hstrict

/-- No level gets past a colon in front of a slash: it is the head of a path, which has no name. -/
theorem turn_ne_ok_of_colonSlash {level : Level} (hl : level ≠ .path) {opened : Site}
    {c c' : Collected} {goesOn : Bool} (hs : s.At source) (hnext : s.BeforeColonSlash) :
    turn setup nested level opened c s ≠ .ok (c', goesOn) t := by
  intro h
  obtain ⟨hcolon, hslash⟩ := hnext
  have hspace : isSpace (byteAt s.cursor.rest 0) = false := by
    rw [hcolon]
    rfl
  have hlooked := (looked_of_not_space hspace).2
  obtain ⟨rest, hrest⟩ : ∃ rest, s.cursor.rest = colon :: slash :: rest := by
    match hr : s.cursor.rest with
    | [] =>
      rw [hr] at hcolon
      cases hcolon
    | [b] =>
      rw [hr] at hslash
      cases hslash
    | b₀ :: b₁ :: rest =>
      rw [hr] at hcolon hslash
      obtain rfl : b₀ = colon := hcolon
      obtain rfl : b₁ = slash := hslash
      exact ⟨rest, rfl⟩
  have hreading (level : Level) : s.reading level =
      Element.of level (colon :: slash :: rest) (Lexeme.good .getWord 1) := by
    rw [reading, hlooked, hrest, ofFront_colon_slash]
  have hhead : (s.reading level).element = .pathHead .getWord := by
    rw [hreading]
    cases level with
    | path => exact absurd rfl hl
    | top | inside b => rfl
  have hbad : (s.looked.reading .path).element = .invalid .getWord 1 := by
    rw [reading, (looked_of_not_space (s := s.looked) (by rw [hlooked]; exact hspace)).2]
    show (s.reading .path).element = _
    rw [hreading]
    rfl
  have hitem : (s.reading level).element.isItem = true := by
    rw [hhead]
    rfl
  rw [turn_item hitem] at h
  obtain ⟨out, u, hperform, -⟩ := item_strict hstrict hitem h
  cases hperform with
  | head he hpath =>
    obtain ⟨segments, w, hsegments, -⟩ := bind_eq_ok.1 hpath
    exact (hn.path hs.looked (s.reading_reads level) he hsegments).2.2 _ _ hbad
  | consumed hcarried =>
    rw [hhead] at hcarried
    cases hcarried

include hmake

/-- **A round of a level leaves its paths well formed, or a lit-path cut in front of a colon.** -/
theorem turn_formed (htiler : Tiler source nested) {level : Level} (hl : level ≠ .path) {opened : Site}
    {c c' : Collected} {goesOn : Bool} (hs : s.At source) (hc : Formed c s)
    (h : turn setup nested level opened c s = .ok (c', goesOn) t) :
    FormedTurn setup source level c c' goesOn t := by
  have hread := s.reading_reads level
  have hlooked := hs.looked
  cases hc with
  | cut hitem hcut hnext => exact absurd h (turn_ne_ok_of_colonSlash hn hstrict hl hs hnext)
  | whole hc =>
    cases turn_strict hstrict h with
    | atEnd | left | closed => exact .ended hc
    | item out u _ hperform hsettle =>
      have hplace := (hperform.place htiler hmake hlooked hread).1
      cases hsettle with
      | lineBreak | comment => exact .goesOn hplace (.whole hc) fun _ _ => rfl
      | slot => exact absurd (hread.of_slot hperform.of_slot.1).1 hl
      | value v h =>
        have hvalue := hperform.pathsFormed hn hmake hlooked hread
        have hformed : Formed (c.push v ⟨s.looked.cursor.start, u.cursor.start⟩) u := by
          rcases hvalue with hv | ⟨hcut, hnext⟩
          · exact .whole (List.forall_mem_cons.2 ⟨hv, hc⟩)
          · exact .cut List.mem_cons_self hcut hnext
        obtain ⟨rfl, rfl, ⟨rfl, hstops⟩ | ⟨rfl, htop, hstops⟩⟩ := afterItem_eq_ok hl h
        · refine .goesOn hplace hformed fun htop hall => ?_
          rw [hstops htop] at hall
          cases hall
        · rcases hvalue with hv | ⟨hcut, hnext⟩
          · exact .ended (List.forall_mem_cons.2 ⟨hv, hc⟩)
          · exact .stopped htop hstops rfl hcut hplace hnext

end

/-! ## Levels -/

/-- The levels inside collect well-formed paths, however deep they may nest. -/
theorem pather_inside (hmake : setup.construct = .standard) (hstrict : setup.options.relaxed = false)
    (source : Bytes) (room : Nat) : Pather source (inside setup (source.length + 1) room) := by
  induction room with
  | zero =>
    constructor
    · intro b start s t body hs h
      cases h
    · intro level kind r start s t segments hs hr he h
      cases h
  | succ room ih =>
    have htiler := tiler_inside hmake hstrict source room
    constructor
    · intro b start s t body hs h
      refine level_induct (P := fun c s => s.At source ∧ Formed c s)
        (Q := fun body _ => ∀ item ∈ body.items, item.value.PathsFormed) hs h
        ⟨hs, .whole fun item hitem => (by cases hitem)⟩ ?_ ?_
      · intro opened c u c' v ⟨hu, hformed⟩ hturn
        cases turn_formed ih hmake hstrict htiler Level.noConfusion hu hformed hturn with
        | goesOn hv h => exact ⟨hv, h⟩
      · intro opened c u c' v ⟨hu, hformed⟩ hturn
        cases turn_formed ih hmake hstrict htiler Level.noConfusion hu hformed hturn with
        | ended h => exact fun item hitem => h item (List.mem_reverse.1 hitem)
        | stopped hl => cases hl
    · intro level' kind r start s t segments hs hr he h
      refine level_induct
        (P := fun c u => PathTiling source s.cursor.start c u ∧ PathSoFar kind s c u)
        (Q := fun segments u => Segmented kind segments.items u ∧ u.cursor.stop = u.cursor.start ∧
          ∀ kind' n, (s.reading .path).element ≠ .invalid kind' n) hs h
        ⟨⟨hs, .nil _, .inr ⟨rfl, hr.of_pathHead he⟩⟩, .opened rfl rfl⟩ ?_ ?_
      · intro opened c u c' v ⟨htiling, hsofar⟩ hturn
        have htiled := path_turn_tiling htiler hmake hstrict htiling hturn
        have hsegmented := path_turn_segmented ih hmake hstrict hr he htiling hsofar hturn
        exact ⟨(htiled.resolve_right fun h => Bool.noConfusion h.1).2,
          (hsegmented.resolve_right fun h => Bool.noConfusion h.1).2⟩
      · intro opened c u c' v ⟨htiling, hsofar⟩ hturn
        have htiled := path_turn_tiling htiler hmake hstrict htiling hturn
        have hsegmented := path_turn_segmented ih hmake hstrict hr he htiling hsofar hturn
        obtain ⟨-, h, hvalid⟩ := hsegmented.resolve_left fun h => Bool.noConfusion h.1
        exact ⟨h, (htiled.resolve_left fun h => Bool.noConfusion h.1).2.stop, hvalid⟩

end Scan

/-- **Every path of a strict scan is well formed**, at any depth and whatever part of the source was
asked for. The one exception is a scan that stops behind its first value: it can have cut a lit-path
behind the first segment, in front of a colon and a slash. -/
theorem transcode_paths {source : Bytes} {symbols table : SymbolTable} {options : Options}
    {t : Transcoded} (hstrict : options.relaxed = false)
    (h : transcode source symbols options = (.ok t, table)) :
    (∀ item ∈ t.values.items, item.value.PathsFormed) ∨
      (options.stopsAfterValue = true ∧ ∃ item, t.values.items = [item] ∧ item.value.IsCut ∧
        byteAt source t.consumed = colon ∧ byteAt source (t.consumed + 1) = slash) := by
  obtain ⟨s, hs, ht, -⟩ := transcodeWith_eq_ok.1 h
  rw [Setup.scan, level_eq, levelWith_eq_ok] at hs
  obtain ⟨c, hrun, hc⟩ := hs
  have hplace : (Session.start source symbols).At source :=
    ⟨rfl, rfl, byteOrderMarkLength_le source⟩
  have hfuel : (Session.start source symbols).cursor.rest.length < source.length + 1 := by
    have := hplace.length
    omega
  have hn : Pather source (inside ⟨options, .standard⟩ (source.length + 1) options.maxDepth) :=
    pather_inside rfl hstrict source options.maxDepth
  have htiler : Tiler source (inside ⟨options, .standard⟩ (source.length + 1) options.maxDepth) :=
    tiler_inside rfl hstrict source options.maxDepth
  have hend : (∀ item ∈ c.items, item.value.PathsFormed) ∨
      (options.stopsAfterValue = true ∧ ∃ item, c.items = [item] ∧ item.value.IsCut ∧
        s.At source ∧ s.BeforeColonSlash) := by
    refine rounds_induct (inside_forward _ _ _) (inside_consumes _ _ _)
      (P := fun c s => s.At source ∧ Formed c s ∧
        (options.stopsAfterValue = true → c.items = []))
      (Q := fun c s => (∀ item ∈ c.items, item.value.PathsFormed) ∨
        (options.stopsAfterValue = true ∧ ∃ item, c.items = [item] ∧ item.value.IsCut ∧
          s.At source ∧ s.BeforeColonSlash)) ?_ ?_ hfuel ?_ hrun
    · rintro c u c' v ⟨hu, hformed, hnone⟩ hturn
      cases turn_formed hn rfl hstrict htiler Level.noConfusion hu hformed hturn with
      | goesOn hv h hadds => exact ⟨hv, h, fun hstops => (hadds rfl hstops).trans (hnone hstops)⟩
    · rintro c u c' v ⟨hu, hformed, hnone⟩ hturn
      cases turn_formed hn rfl hstrict htiler Level.noConfusion hu hformed hturn with
      | ended h => exact .inl h
      | stopped hl hstops hadds hcut hv hnext =>
        rw [hnone hstops] at hadds
        exact .inr ⟨hstops, _, hadds, hcut, hv, hnext⟩
    · exact ⟨hplace, .whole fun item hitem => (by cases hitem), fun _ => rfl⟩
  rw [← hc, ht]
  rcases hend with hall | ⟨hstops, item, hitems, hcut, hplace, hcolon, hslash⟩
  · exact .inl fun item hitem => hall item (List.mem_reverse.1 hitem)
  · refine .inr ⟨hstops, item, ?_, hcut, ?_, ?_⟩
    · show c.items.reverse = [item]
      rw [hitems, List.reverse_singleton]
    · rwa [hplace.byte, Nat.add_zero] at hcolon
    · rwa [hplace.byte] at hslash

/-- `a/(b)/1:`, a set-path of three segments. -/
theorem transcode_paths_setPath :
    ∃ source t table, transcode source .initial .standard = (.ok t, table) ∧
      source = [0x61, 0x2F, 0x28, 0x62, 0x29, 0x2F, 0x31, 0x3A] ∧
      t.values.items.map (fun item => item.value.block?.map fun (kind, body) =>
        (kind, body.items.length)) = [some (.setPath, 3)] ∧
      ∀ item ∈ t.values.items, item.value.PathsFormed := by
  have hpaths : ((transcode [0x61, 0x2F, 0x28, 0x62, 0x29, 0x2F, 0x31, 0x3A] .initial
      .standard).1.toOption.map fun t => t.values.items.map fun item =>
        item.value.block?.map fun (kind, body) => (kind, body.items.length)) =
          some [some (.setPath, 3)] := by
    decide +kernel
  cases h : transcode [0x61, 0x2F, 0x28, 0x62, 0x29, 0x2F, 0x31, 0x3A] .initial .standard with
  | mk result table =>
    rw [h] at hpaths
    cases result with
    | error failure => cases hpaths
    | ok t =>
      refine ⟨_, t, table, h, rfl, Option.some.inj hpaths, ?_⟩
      exact (transcode_paths rfl h).resolve_right fun hcut => Bool.noConfusion hcut.1

/-- In `'a:/b` the colon cuts the lit-path behind its first segment, and a scan for the first value
returns with that. -/
theorem colon_cuts_litPath :
    ∃ source options t table, transcode source .initial options = (.ok t, table) ∧
      source = [0x27, 0x61, 0x3A, 0x2F, 0x62] ∧ options = { Options.standard with next := true } ∧
      ∃ item ∈ t.values.items, ¬item.value.PathsFormed := by
  have hpaths : ((transcode [0x27, 0x61, 0x3A, 0x2F, 0x62] .initial
      { Options.standard with next := true }).1.toOption.map fun t => t.values.items.map fun item =>
        item.value.block?.map fun (kind, body) => (kind, body.items.length)) =
          some [some (.litPath, 1)] := by
    decide +kernel
  cases h : transcode [0x27, 0x61, 0x3A, 0x2F, 0x62] .initial
      { Options.standard with next := true } with
  | mk result table =>
    rw [h] at hpaths
    cases result with
    | error failure => cases hpaths
    | ok t =>
      obtain ⟨item, hitems, hblock⟩ := List.map_eq_singleton_iff.1 (Option.some.inj hpaths)
      obtain ⟨⟨kind, body⟩, hbody, hone⟩ := Option.map_eq_some_iff.1 hblock
      obtain ⟨rfl, hlength⟩ := Prod.mk.inj hone
      refine ⟨_, _, t, table, h, rfl, rfl, item, hitems ▸ List.mem_singleton_self item, ?_⟩
      intro hformed
      rw [Value.block?_eq_some hbody] at hformed
      have htwo := (hformed .litPath body .here rfl).two_le
      rw [hlength] at htwo
      exact absurd htwo (by decide)

end RebolScan
