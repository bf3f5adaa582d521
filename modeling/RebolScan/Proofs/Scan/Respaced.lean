import RebolScan.Proofs.Scan.Abreast
import RebolScan.Proofs.Scan.Strict

/-!
# Scans of texts that differ in their white space

Two scans that are abreast do the same step by step: what segments join to, what a construction makes,
what an element comes to and what a level makes of that is **alike but for its places**. In the white
space in which their texts differ the rounds are different, and the levels go on from behind it
(`finish_abreast`). So it is for the levels inside as well, by recursion on the room (`keeps_inside`).

There is one way out, which is said of every step: the first scan may have read on across the place
where the texts part, in a string, say, that holds white space. Then nothing it collects has a gap there.
-/

set_option autoImplicit false

namespace RebolScan

open Ascii

theorem unplaced_block_congr (kind : BlockKind) {b b' : Block}
    (h : b'.items.map Item.unplaced = b.items.map Item.unplaced) :
    (Value.block kind b').unplaced = (Value.block kind b).unplaced := by
  rw [Value.unplaced_block, Value.unplaced_block, h]

namespace Scan

open Session

/-- The outcome without places. -/
def Outcome.unplaced : Outcome → Outcome
  | .value v => .value v.unplaced
  | out => out

variable {setup : Setup} {nested nested' : Nested} {source : Bytes} {level : Level} {opened : Site}
  {a e n : Nat} {x y : Bytes} {start start' : Nat} {s t u : Session}

/-! ## Paths and constructions -/

/-- What segments make, where nothing behind them is pending. -/
theorem joinPath_settled (head : TokenKind) (start : Nat) (segments : Block)
    (hstop : s.cursor.stop = s.cursor.start) :
    joinPath head start segments s =
      if head == .litWord then
        .ok (.block .litPath { segments with items := mapFirst plainWord segments.items }) s
      else match segments.items.head?.bind fun item => item.value.word? with
        | some (.getWord, _) =>
          if byteAt s.cursor.rest 0 == colon then
            (advanceTo (s.cursor.stop + 1) >>= fun _ => invalid .path ⟨start, s.cursor.stop + 1⟩) s
          else .ok (.block .getPath { segments with items := mapFirst plainWord segments.items }) s
        | _ =>
          if byteAt s.cursor.rest 0 == colon then
            .ok (.block .setPath segments) { s with cursor := s.cursor.advance 1 }
          else .ok (.block .path segments) s := by
  have hbyte : byteFrom s.cursor.stop s = .ok (byteAt s.cursor.rest 0) s := by
    show EStateM.Result.ok (byteAt s.cursor.rest (s.cursor.stop - s.cursor.start)) s = _
    rw [hstop, Nat.sub_self]
  have hpath : (if byteAt s.cursor.rest 0 == colon then
      advanceTo (s.cursor.stop + 1) >>= fun _ => pure (.block .setPath segments)
      else pure (.block .path segments) : Scan Value) s =
        if byteAt s.cursor.rest 0 == colon then
          .ok (.block .setPath segments) { s with cursor := s.cursor.advance 1 }
        else .ok (.block .path segments) s := by
    have hone : s.cursor.stop + 1 - s.cursor.start = 1 := by omega
    split
    · show EStateM.Result.ok _ { s with
        cursor := s.cursor.advance (s.cursor.stop + 1 - s.cursor.start) } = _
      rw [hone]
    · rfl
  rw [joinPath, bind_of_ok (x := cursor) rfl, bind_of_ok hbyte]
  generalize (segments.items.head?.bind fun item => item.value.word?) = first
  split
  · rfl
  · cases first with
    | none => exact hpath
    | some word =>
      obtain ⟨kind, name⟩ := word
      cases kind with
      | getWord =>
        dsimp only
        split <;> rfl
      | _ => exact hpath

section

variable (hxy : Respaced x y)

include hxy

/-- Segments that are alike but for their places make the same path in both scans. -/
theorem joinPath_abreast {head : TokenKind} {segments segments' : Block} {v : Value}
    (hst : s.Abreast a x y t) (hstop : s.cursor.stop = s.cursor.start)
    (hstop' : t.cursor.stop = t.cursor.start)
    (hsegments : segments'.items.map Item.unplaced = segments.items.map Item.unplaced)
    (start' : Nat) (h : joinPath head start segments s = .ok v u) :
    ∃ v' u', joinPath head start' segments' t = .ok v' u' ∧ v'.unplaced = v.unplaced ∧
      u.Abreast a x y u' ∧ u'.cursor.stop = u'.cursor.start := by
  have hcolon : (byteAt t.cursor.rest 0 == colon) = (byteAt s.cursor.rest 0 == colon) :=
    hst.byte hxy (blind_beq (by decide))
  have hfirst : (segments'.items.head?.bind fun item => item.value.word?) =
      segments.items.head?.bind fun item => item.value.word? := by
    rw [← replaces_unplaced.first_word?, hsegments, replaces_unplaced.first_word?]
  have hplain : (mapFirst plainWord segments'.items).map Item.unplaced =
      (mapFirst plainWord segments.items).map Item.unplaced := by
    rw [replaces_unplaced.mapFirst_plainWord (fun _ _ => rfl), hsegments,
      replaces_unplaced.mapFirst_plainWord (fun _ _ => rfl)]
  have hlast {kind : BlockKind} {b b' : Block}
      (hb : b'.items.map Item.unplaced = b.items.map Item.unplaced)
      (h : EStateM.Result.ok (.block kind b) s = (.ok v u : EStateM.Result Fault Session Value)) :
      ∃ v' u', (EStateM.Result.ok (.block kind b') t : EStateM.Result Fault Session Value) = .ok v' u' ∧
        v'.unplaced = v.unplaced ∧ u.Abreast a x y u' ∧ u'.cursor.stop = u'.cursor.start := by
    cases h
    exact ⟨_, _, rfl, unplaced_block_congr kind hb, hst, hstop'⟩
  rw [joinPath_settled head start segments hstop] at h
  rw [joinPath_settled head start' segments' hstop', hcolon, hfirst]
  split at h
  · rename_i hh
    rw [if_pos hh]
    exact hlast hplain h
  · rename_i hh
    rw [if_neg hh]
    split at h
    · split at h
      · obtain ⟨_, _, -, h⟩ := bind_eq_ok.1 h
        cases h
      · rename_i hc
        rw [if_neg hc]
        exact hlast hplain h
    · split at h
      · rename_i hc
        rw [if_pos hc]
        cases h
        have hc := eq_of_beq hc
        exact ⟨_, _, rfl, unplaced_block_congr .setPath hsegments,
          hst.advance_one hxy (by rw [hc]; rfl), rfl⟩
      · rename_i hc
        rw [if_neg hc]
        exact hlast hsegments h

end

/-- Items that are alike but for their places construct the same in both scans. -/
theorem construct_abreast (hmake : setup.construct = .standard) {spec spec' : Block} {v : Value}
    (hst : s.Abreast a x y t) (hstop' : t.cursor.stop = t.cursor.start)
    (hspec : spec'.items.map Item.unplaced = spec.items.map Item.unplaced) (start' : Nat)
    (h : construct setup start spec s = .ok v u) :
    ∃ v' u', construct setup start' spec' t = .ok v' u' ∧ v'.unplaced = v.unplaced ∧
      u.Abreast a x y u' ∧ u'.cursor.stop = u'.cursor.start := by
  obtain ⟨hv, rfl⟩ := construct_eq_ok h
  rw [hmake] at hv ⊢
  have hv : Constructor.valueOf? spec.items s.symbols = some v := hv
  have hmap : (Constructor.valueOf? spec'.items t.symbols).map Value.unplaced = some v.unplaced := by
    rw [← Constructor.valueOf?_replaced replaces_unplaced, hspec, hst.symbols,
      Constructor.valueOf?_replaced replaces_unplaced, hv]
    rfl
  obtain ⟨v', hv', he⟩ := Option.map_eq_some_iff.1 hmap
  have hmake' : setup.construct.make spec'.items t.symbols = (some v', t.symbols) := by
    rw [hmake]
    exact congrArg (·, t.symbols) hv'
  refine ⟨v', t, ?_, he, hst, hstop'⟩
  rw [construct, bind_of_ok (x := get) rfl, hmake']
  rfl

/-! ## Values across the place where the texts part -/

/-- What holds no gap below it makes no value that does. -/
theorem Joins.not_gapAt {head : TokenKind} {segments : Block} {v : Value}
    (h : Joins head segments s v t) (hmisses : Misses a e segments.items) : ¬v.GapAt a e := by
  cases h with
  | litPath | getPath => exact Misses.block hmisses.mapFirst_plainWord
  | path | setPath => exact hmisses.block

/-- Neither does a construction. -/
theorem not_gapAt_valueOf {items : List Item} {symbols : SymbolTable} {v : Value}
    (hitems : Misses a e items) (h : Constructor.valueOf? items symbols = some v) :
    ¬v.GapAt a e := by
  rcases valueOf_cases h with ⟨hscalar, -⟩ | ⟨body, hbody, block, fields, hvalue, rfl, hfields⟩
  · exact Value.not_gapAt_of_isScalar hscalar
  · have hgap := (hitems body hbody).2
    rw [hvalue] at hgap
    rintro (_ | _ | ⟨hfield, hg⟩)
    exact hgap (.item .block (hfields _ _ hfield) hg)

/-! ## Elements -/

/-- What the levels inside read is alike in both scans, which are then abreast again, or the gap from
`a` to `e` is not in what the first one reads, though it reads on across `a`. Fuel for `n` bytes is
enough for the second. -/
def Keeps (source : Bytes) (a e : Nat) (x y : Bytes) (n : Nat) (nested nested' : Nested) : Prop :=
  ∀ {l : Level} (start start' : Nat) {s t u : Session} {body : Block}, l ≠ .top → s.At source →
    (l = .path → StartsSegment s.cursor.rest) → s.Abreast a x y t → t.cursor.rest.length ≤ n →
    nested l start s = .ok body u →
    (∃ body' u', nested' l start' t = .ok body' u' ∧
      body'.items.map Item.unplaced = body.items.map Item.unplaced ∧
      u.Abreast a x y u' ∧ u'.cursor.stop = u'.cursor.start) ∨
    (s.cursor.start < a ∧ a < u.cursor.start ∧ Misses a e body.items)

section

variable (hk : Keeps source a e x y n nested nested')

include hk

/-- A path that both scans read is alike in both. -/
theorem path_abreast (hxy : Respaced x y) (hn : Tiler source nested) {kind : TokenKind} {v : Value}
    (hs : s.At source) (hstarts : StartsSegment s.cursor.rest) (hst : s.Abreast a x y t)
    (hsize : t.cursor.rest.length ≤ n) (start' : Nat) (h : path nested kind start s = .ok v u) :
    (∃ v' u', path nested' kind start' t = .ok v' u' ∧ v'.unplaced = v.unplaced ∧
      u.Abreast a x y u' ∧ u'.cursor.stop = u'.cursor.start) ∨
    (s.cursor.start < a ∧ a < u.cursor.start ∧ ¬v.GapAt a e) := by
  obtain ⟨segments, s₁, hsegments, hjoin⟩ := bind_eq_ok.1 h
  obtain ⟨-, -, hstop⟩ := hn.path hs hstarts hsegments
  rcases hk _ start' Level.noConfusion hs (fun _ => hstarts) hst hsize hsegments with
    ⟨segments', t₁, hsegments', hitems, hst₁, hstop'⟩ | ⟨hlt, hgt, hmisses⟩
  · obtain ⟨v', u', hjoin', hv, hu, hsettled⟩ :=
      joinPath_abreast hxy hst₁ hstop hstop' hitems start' hjoin
    exact .inl ⟨v', u', (bind_of_ok hsegments').trans hjoin', hv, hu, hsettled⟩
  · have hjoins := joinPath_eq_ok hjoin
    refine .inr ⟨hlt, ?_, hjoins.not_gapAt hmisses⟩
    cases hjoins with
    | litPath | getPath | path => exact hgt
    | setPath => exact Nat.lt_of_lt_of_le hgt (Nat.le_add_right _ _)

/-- So is what the scans consume of an element, whatever brackets hold. -/
theorem carryOut_abreast (hmake : setup.construct = .standard) {e' : Element} (taken : Nat)
    {out : Outcome} (hs : s.At source) (hst : s.Abreast a x y t)
    (hstop : t.cursor.stop = t.cursor.start) (hsize : t.cursor.rest.length ≤ n) (start' : Nat)
    (h : CarriedOut setup nested start s e' out u) :
    (∃ out' u', carryOut setup nested' ⟨e', taken⟩ start' t = .ok out' u' ∧
      out'.unplaced = out.unplaced ∧ u.Abreast a x y u' ∧ u'.cursor.stop = u'.cursor.start) ∨
    ∃ v, out = .value v ∧ s.cursor.start < a ∧ a < u.cursor.start ∧ ¬v.GapAt a e := by
  have hvalue {v v' : Value} (hv : v'.unplaced = v.unplaced) :
      (Outcome.value v').unplaced = (Outcome.value v).unplaced := congrArg Outcome.value hv
  have hintern (name : String) : t.symbols.intern name = s.symbols.intern name := by
    rw [hst.symbols]
  cases h with
  | lineBreak => exact .inl ⟨_, _, rfl, rfl, hst.update rfl rfl rfl hst.symbols, hstop⟩
  | comment | slot | value => exact .inl ⟨_, _, rfl, rfl, hst, hstop⟩
  | word kind name =>
    refine .inl ⟨.value (.word kind (t.symbols.intern name).1),
      { t with symbols := (t.symbols.intern name).2 }, rfl, ?_,
      hst.update rfl rfl rfl (congrArg (·.2) (hintern name)), hstop⟩
    rw [hintern]
  | issue name =>
    refine .inl ⟨.value (.issue (t.symbols.intern name).1),
      { t with symbols := (t.symbols.intern name).2 }, rfl, ?_,
      hst.update rfl rfl rfl (congrArg (·.2) (hintern name)), hstop⟩
    rw [hintern]
  | opener b hbody honly =>
    rcases hk _ start' Level.noConfusion hs Level.noConfusion hst hsize hbody with
      ⟨body', u', hbody', hitems, hu, hsettled⟩ | ⟨hlt, hgt, hmisses⟩
    · refine .inl ⟨.value (.block b.blockKind body'), u', ?_,
        hvalue (unplaced_block_congr _ hitems), hu, hsettled⟩
      show (if setup.options.only then _ else _ : Scan Outcome) _ = _
      rw [if_neg (by rw [honly]; exact Bool.noConfusion)]
      exact bind_of_ok hbody'
    · exact .inr ⟨_, rfl, hlt, hgt, hmisses.block⟩
  | construct hc =>
    obtain ⟨spec, s₂, hspec, hc⟩ := bind_eq_ok.1 hc
    rcases hk _ start' Level.noConfusion hs Level.noConfusion hst hsize hspec with
      ⟨spec', t₂, hspec', hitems, hst₂, hstop'⟩ | ⟨hlt, hgt, hmisses⟩
    · obtain ⟨v', u', hc', hv, hu, hsettled⟩ :=
        construct_abreast hmake hst₂ hstop' hitems start' hc
      exact .inl ⟨.value v', u', bind_of_ok ((bind_of_ok hspec').trans hc'), hvalue hv, hu, hsettled⟩
    · obtain ⟨hv, rfl⟩ := construct_eq_ok hc
      rw [hmake] at hv
      exact .inr ⟨_, rfl, hlt, hgt, not_gapAt_valueOf hmisses hv⟩

/-- **An element that both scans read is alike in both.** -/
theorem perform_abreast (hxy : Respaced x y) (hmake : setup.construct = .standard)
    (hn : Tiler source nested) {r : Element.Reading} {out : Outcome} (hs : s.At source)
    (hr : Element.Reads level s.cursor.rest r) (hst : s.Abreast a x y t)
    (hadvanced : Abreast a x y { s with cursor := s.cursor.advance r.taken }
      { t with cursor := t.cursor.advance r.taken })
    (hsize : t.cursor.rest.length ≤ n) (start' : Nat)
    (h : Performed setup nested r s.cursor.start s out u) :
    (∃ out' u', perform setup nested' r start' t = .ok out' u' ∧ out'.unplaced = out.unplaced ∧
      u.Abreast a x y u' ∧ u'.cursor.stop = u'.cursor.start) ∨
    ∃ v, out = .value v ∧ s.cursor.start < a ∧ a < u.cursor.start ∧ ¬v.GapAt a e := by
  cases h with
  | @head kind he v _ hpath =>
    rcases path_abreast hk hxy hn hs (hr.of_pathHead he) hst hsize start' hpath with
      ⟨v', u', hpath', hv, hu, hsettled⟩ | hacross
    · refine .inl ⟨.value v', u', ?_, congrArg Outcome.value hv, hu, hsettled⟩
      rw [perform_head he]
      exact bind_of_ok hpath'
    · exact .inr ⟨v, rfl, hacross⟩
  | consumed h =>
    have hs' := hs.advance (h.taken_bounds hr).2
    have hsize' : (t.cursor.rest.drop r.taken).length ≤ n := by
      rw [List.length_drop]
      omega
    rcases carryOut_abreast hk hmake r.taken hs' hadvanced rfl hsize' start' h with
      ⟨out', u', hcarry, hout, hu, hsettled⟩ | ⟨v, hv, hlt, hgt, hgap⟩
    · refine .inl ⟨out', u', ?_, hout, hu, hsettled⟩
      rw [perform_element h.ne_pathHead]
      exact hcarry
    · exact .inr ⟨v, hv, Nat.lt_of_le_of_lt (Nat.le_add_right _ _) hlt, hgt, hgap⟩

end

/-! ## Rounds -/

section

variable (hxy : Respaced x y)

include hxy

/-- A slash behind a segment, and what must follow it, are there in both scans or in neither. -/
theorem separator_abreast {goesOn : Bool} (hst : s.Abreast a x y t)
    (hstop : s.cursor.stop = s.cursor.start) (hstop' : t.cursor.stop = t.cursor.start) (start' : Nat)
    (d : Collected) (h : Parted s goesOn u) :
    ∃ u', separator setup start' d t = .ok (d, goesOn) u' ∧ u.Abreast a x y u' ∧
      u'.cursor.stop = u'.cursor.start := by
  rcases h.settled hstop with ⟨rfl, rfl, hs⟩ | ⟨rfl, rfl, hs, hnext⟩
  · have ht : byteAt t.cursor.rest 0 ≠ slash := mt (hst.byte_eq hxy (by decide)).1 hs
    exact ⟨t, separator_last d start' hstop' ht, hst, hstop'⟩
  · have hadvanced := hst.advance_one hxy (by rw [hs]; decide)
    have hnext' : byteAt t.cursor.rest 1 = parenOpen ∨
        isDelimiter (byteAt t.cursor.rest 1) = false := by
      have hparen : byteAt (t.cursor.rest.drop 1) 0 = parenOpen ↔
          byteAt (s.cursor.rest.drop 1) 0 = parenOpen := hadvanced.byte_eq hxy (by decide)
      have hdelimiter : isDelimiter (byteAt (t.cursor.rest.drop 1) 0) =
          isDelimiter (byteAt (s.cursor.rest.drop 1) 0) := hadvanced.byte hxy blind_isDelimiter
      rw [byteAt_drop, byteAt_drop] at hparen hdelimiter
      rw [← hparen, ← hdelimiter] at hnext
      exact hnext.symm
    exact ⟨_, separator_goes d start' hstop' ((hst.byte_eq hxy (by decide)).2 hs) hnext', hadvanced,
      rfl⟩

/-- What alike outcomes do to alike levels. -/
theorem settle_abreast (hstrict : setup.options.relaxed = false) {c c' d : Collected} {goesOn : Bool}
    {out out' : Outcome} (hst : s.Abreast a x y t) (hstop : s.cursor.stop = s.cursor.start)
    (hstop' : t.cursor.stop = t.cursor.start) (hout : out'.unplaced = out.unplaced)
    (hitems : d.items.map Item.unplaced = c.items.map Item.unplaced) (start' : Nat)
    (h : Settled setup level start c s (.ok out) c' goesOn u) :
    ∃ d' u', settle setup level start' d (.ok out') t = .ok (d', goesOn) u' ∧
      d'.items.map Item.unplaced = c'.items.map Item.unplaced ∧ u.Abreast a x y u' ∧
      (goesOn = false → level ≠ .top → u'.cursor.stop = u'.cursor.start) := by
  cases h with
  | lineBreak =>
    cases out' with
    | lineBreak => exact ⟨_, _, rfl, hitems, hst, Bool.noConfusion⟩
    | _ => cases hout
  | comment =>
    cases out' with
    | comment => exact ⟨_, _, rfl, hitems, hst, Bool.noConfusion⟩
    | _ => cases hout
  | slot =>
    cases out' with
    | slot => exact ⟨_, _, rfl, congrArg (List.cons _) hitems, hst, Bool.noConfusion⟩
    | _ => cases hout
  | value v h =>
    cases out' with
    | value v' =>
      have hv : v'.unplaced = v.unplaced := Outcome.value.inj hout
      obtain ⟨rfl, -⟩ := afterItem_strict hstrict h
      have hpushed : (d.push v' ⟨start', t.cursor.start⟩).items.map Item.unplaced =
          (c.push v ⟨start, s.cursor.start⟩).items.map Item.unplaced := by
        show Placed.mk v'.unplaced _ _ :: d.items.map Item.unplaced = _ :: _
        rw [hv, hitems]
        rfl
      cases level with
      | top =>
        have hgoes := (Prod.mk.inj (EStateM.Result.ok.inj h).1).2
        have hu := (EStateM.Result.ok.inj h).2
        subst hgoes hu
        exact ⟨_, t, rfl, hpushed, hst, fun _ hl => absurd rfl hl⟩
      | inside b =>
        cases h
        exact ⟨_, t, rfl, hpushed, hst, Bool.noConfusion⟩
      | path =>
        obtain ⟨u', hu', hst', hsettled⟩ := separator_abreast hxy hst hstop hstop' start'
          (d.push v' ⟨start', t.cursor.start⟩) (separator_strict hstrict h).2
        exact ⟨_, u', hu', hpushed, hst', fun _ _ => hsettled⟩
    | _ => cases hout

end

/-- What reading across `a` leaves: at the most one more item, which holds no gap at `a`. -/
inductive Crosses (a e : Nat) (c : Collected) : Collected → Prop
  | nothing {c' : Collected} (h : c'.items = c.items) : Crosses a e c c'
  | item {c' : Collected} {item : Item} (h : c'.items = item :: c.items) (hstop : a < item.span.stop)
      (hgap : ¬item.value.GapAt a e) : Crosses a e c c'

/-- A value that holds no gap at `a` is collected across it. -/
theorem Settled.crosses (hstrict : setup.options.relaxed = false) {c c' : Collected} {goesOn : Bool}
    {v : Value} (h : Settled setup level start c s (.ok (.value v)) c' goesOn u)
    (hgt : a < s.cursor.start) (hgap : ¬v.GapAt a e) : a < u.cursor.start ∧ Crosses a e c c' := by
  cases h with
  | value _ h =>
    have hle := ((afterItem_forward _ _ _ _).ok h).start
    obtain ⟨rfl, -⟩ := afterItem_strict hstrict h
    exact ⟨Nat.lt_of_lt_of_le hgt hle, .item rfl hgt hgap⟩

/-- So is a flat element. -/
theorem item_crosses (hstrict : setup.options.relaxed = false) {r : Element.Reading}
    {c c' : Collected} {goesOn : Bool} (hflat : r.element.isFlat = true)
    (hgt : a < s.cursor.start + r.taken)
    (h : item setup nested level r start c s = .ok (c', goesOn) u) :
    a < u.cursor.start ∧ Crosses a e c c' := by
  obtain ⟨out, u₁, hperform, hsettle⟩ := item_strict hstrict (Element.isItem_of_isFlat hflat) h
  cases hperform with
  | head he =>
    rw [he] at hflat
    cases hflat
  | consumed h =>
    generalize r.element = element at h hflat
    cases h with
    | lineBreak | comment =>
      cases hsettle
      exact ⟨hgt, .nothing rfl⟩
    | value v => exact hsettle.crosses hstrict hgt (Value.not_gapAt_of_isScalar hflat)
    | _ => cases hflat

section

variable (hxy : Respaced x y) (hmake : setup.construct = .standard)
  (hstrict : setup.options.relaxed = false) (hn : Tiler source nested)
  (hk : Keeps source a e x y n nested nested')

include hxy hmake hstrict hn hk

/-- **A round of both scans that is not in the white space in which they differ is alike in both**, or
the first scan reads on across `a`. -/
theorem turn_abreast {c c' d : Collected} {goesOn : Bool} (hs : s.At source)
    (hnext : level = .path → StartsSegment s.cursor.rest ∨ byteAt s.cursor.rest 0 = parenOpen)
    (hst : s.looked.Poised a x y t.looked) (hsize : t.cursor.rest.length ≤ n)
    (hitems : d.items.map Item.unplaced = c.items.map Item.unplaced) (opened' : Site)
    (h : turn setup nested level opened c s = .ok (c', goesOn) u) :
    (∃ d' u', turn setup nested' level opened' d t = .ok (d', goesOn) u' ∧
      d'.items.map Item.unplaced = c'.items.map Item.unplaced ∧ u.Abreast a x y u' ∧
      (goesOn = false → level ≠ .top → u'.cursor.stop = u'.cursor.start)) ∨
    (s.looked.cursor.start < a ∧ a < u.cursor.start ∧ Crosses a e c c') := by
  have hread := s.reading_reads level
  have hread' := t.reading_reads level
  have hpath (hl : level = .path) : (s.reading level).element.isItem = true := by
    subst hl
    exact Element.isItem_of_isSegment (reading_of_segment (hnext rfl)).2
  rcases hst.reading hxy level rfl rfl with
    ⟨kind, length, hinvalid⟩ | ⟨hflat, hlt, hgt⟩ | ⟨hsame, hadvanced⟩
  · have hinvalid : (s.reading level).element = .invalid kind length := hinvalid
    have hitem : (s.reading level).element.isItem = true := by rw [hinvalid]; rfl
    rw [turn_item hitem] at h
    obtain ⟨out, u₁, hperform, -⟩ := item_strict hstrict hitem h
    exact absurd hinvalid (hperform.ne_invalid kind length)
  · have hflat : (s.reading level).element.isFlat = true := hflat
    rw [turn_item (Element.isItem_of_isFlat hflat)] at h
    exact .inr ⟨hlt, item_crosses hstrict hflat hgt h⟩
  · have hsame : t.reading level = s.reading level := hsame
    cases turn_strict hstrict h with
    | atEnd he htop =>
      rcases htop with rfl | rfl
      · refine .inl ⟨d, t.looked, ?_, hitems, hst.abreast, fun _ hl => absurd rfl hl⟩
        rw [turn_apply, hsame, he]
        rfl
      · cases he ▸ hpath rfl
    | left b he hl => cases he ▸ hpath hl
    | closed b he hl =>
      subst hl
      have hclose := hread.of_closer he
      refine .inl ⟨d, _, turn_closes opened' d (hread'.of_closer (by rw [hsame, he])), hitems,
        hst.abreast.advance_one hxy ?_, fun _ _ => rfl⟩
      rw [hclose]
      cases b <;> decide
    | item out u₁ hitem hperform hsettle =>
      obtain ⟨-, -, hstop⟩ := hperform.place hn hmake hs.looked hread
      have hsize' : t.looked.cursor.rest.length ≤ n := Nat.le_trans (length_looked_le t) hsize
      rcases perform_abreast hk hxy hmake hn hs.looked hread hst.abreast hadvanced hsize'
        t.looked.cursor.start hperform with
        ⟨out', u₁', hperform', hout, hst₁, hstop'⟩ | ⟨v, rfl, hlt, hgt, hgap⟩
      · obtain ⟨d', u', hsettle', hitems', hst', hsettled⟩ :=
          settle_abreast hxy hstrict hst₁ hstop hstop' hout hitems t.looked.cursor.start hsettle
        refine .inl ⟨d', u', ?_, hitems', hst', hsettled⟩
        rw [turn_item (by rw [hsame]; exact hitem), hsame]
        exact (item_settles hperform').trans hsettle'
      · exact .inr ⟨hlt, hsettle.crosses hstrict hgt hgap⟩

end

/-! ## Levels -/

/-- No path goes on with what is skipped. -/
theorem not_skipped_of_segment (hxy : Respaced x y) {w : Bytes}
    (h : StartsSegment (w ++ x) ∨ byteAt (w ++ x) 0 = parenOpen) : ¬Skipped w := by
  intro hw
  have hspace (hb : isSpace (byteAt (w ++ x) 0) = true) : False := by
    rcases h with h | h
    · exact Element.not_startsSegment_of_isSpace hb h
    · rw [h] at hb
      cases hb
  have hbreak (hb : isLineBreak (byteAt (w ++ x) 0) = true) : False := by
    rcases h with h | h
    · exact Element.not_startsSegment_of_isLineBreak hb h
    · rw [h] at hb
      cases hb
  cases hw with
  | nil =>
    have hx : isAnySpace (byteAt x 0) = true := hxy.ended
    rcases h with h | h
    · refine Element.not_startsSegment (isDelimiter_of_isAnySpace hx) (fun h0 => ?_) h
      rw [h0] at hx
      cases hx
    · rw [List.nil_append] at h
      rw [h] at hx
      cases hx
  | space hb hr => exact hspace hb
  | lineBreak hb hr => exact hbreak hb
  | comment ht hb hr =>
    rcases h with h | h
    · exact Element.not_startsSegment_of_comment (.inl rfl) h
    · cases h

theorem Crosses.clears {c c' : Collected} (h : Crosses a e c c')
    (hc : ∀ item ∈ c.items, item.span.stop < a) : ∀ item ∈ c'.items, Clears a e item := by
  cases h with
  | nothing h =>
    rw [h]
    exact fun item hitem => .inl (hc item hitem)
  | item h hstop hgap =>
    rw [h]
    intro item hitem
    rcases List.mem_cons.1 hitem with rfl | hitem
    · exact .inr (.inr ⟨hstop, hgap⟩)
    · exact .inl (hc item hitem)

section

variable (hxy : Respaced x y) (hf : ∀ l start, Forward (nested l start)) (hc : Consumes nested)
  (hf' : ∀ l start, Forward (nested' l start)) (hc' : Consumes nested')

include hxy hf hc hf' hc'

/-- What is skipped in front of where the texts part, both scans skip, and then the white space of which
each has its own. -/
theorem skip_abreast {w : Bytes} (hs : s.At source) (hw : s.Nearing a x y w t) (hskip : Skipped w)
    (c d : Collected) (opened opened' : Site) :
    ∃ c' s' d' t', finish setup nested level opened c s = finish setup nested level opened c' s' ∧
      finish setup nested' level opened' d t = finish setup nested' level opened' d' t' ∧
      c'.items = c.items ∧ d'.items = d.items ∧ s'.At source ∧ s.cursor.start ≤ s'.cursor.start ∧
      s.Shorter s' ∧ t'.cursor.rest.length ≤ t.cursor.rest.length ∧ s'.Rejoined a t' := by
  obtain ⟨z, z', v, rfl, rfl, hz, hz', hne, hv⟩ := hxy.skips
  have hrest : s.cursor.rest = (w ++ z) ++ v := by rw [hw.rest, List.append_assoc]
  have hrest' : t.cursor.rest = (w ++ z') ++ v := by rw [hw.rest', List.append_assoc]
  obtain ⟨c', s', hfinish, hitems, hleft, honward⟩ :=
    finish_skipped setup opened hf hc (hskip.append hz) hv c hrest
  obtain ⟨d', t', hfinish', hitems', hleft', honward'⟩ :=
    finish_skipped setup opened' hf' hc' (hskip.append hz') hv d hrest'
  have hs' := honward.place source hs
  have hpos := List.length_pos_iff.2 hne
  have hlength : s.cursor.rest.length = w.length + z.length + v.length := by
    rw [hrest, List.length_append, List.length_append]
  refine ⟨c', s', d', t', hfinish, hfinish', hitems, hitems', hs', honward.start, ?_, ?_,
    hleft'.trans hleft.symm, ?_, ?_⟩
  · show s'.cursor.rest.length < s.cursor.rest.length
    rw [hleft]
    omega
  · rw [hleft', hrest', List.length_append]
    omega
  · have h1 := hs.length
    have h2 := hs'.length
    have h3 := hw.start
    rw [hleft] at h2
    omega
  · rw [honward'.symbols, honward.symbols, hw.symbols]

end

section

variable (hxy : Respaced x y) (hmake : setup.construct = .standard)
  (hstrict : setup.options.relaxed = false) (hn : Tiler source nested)
  (hk : Keeps source a e x y n nested nested')
  (hf : ∀ l start, Forward (nested l start)) (hc : Consumes nested)
  (hf' : ∀ l start, Forward (nested' l start)) (hc' : Consumes nested')

include hxy hmake hstrict hn hk hf hc hf' hc'

/-- **A level is alike in both scans**, or the first reads on across `a` and collects nothing that has
the gap from `a` to `e`. -/
theorem finish_abreast {c d out : Collected} (hs : s.At source)
    (hnext : level = .path → StartsSegment s.cursor.rest ∨ byteAt s.cursor.rest 0 = parenOpen)
    (hst : s.Abreast a x y t) (hsize : t.cursor.rest.length ≤ n)
    (hitems : d.items.map Item.unplaced = c.items.map Item.unplaced)
    (hbefore : ∀ item ∈ c.items, item.span.stop ≤ s.cursor.start) (opened' : Site)
    (h : finish setup nested level opened c s = .ok out u) :
    (∃ out' u', finish setup nested' level opened' d t = .ok out' u' ∧
      out'.items.map Item.unplaced = out.items.map Item.unplaced ∧ u.Abreast a x y u' ∧
      (level ≠ .top → u'.cursor.stop = u'.cursor.start)) ∨
    (s.cursor.start < a ∧ a < u.cursor.start ∧ ∀ item ∈ out.items, Clears a e item) := by
  induction hlength : s.cursor.rest.length using Nat.strongRecOn generalizing c d s t with
  | ind m ih =>
    subst hlength
    -- A round that both scans read alike, or across which the first one reads on.
    have hround (hpoised : s.looked.Poised a x y t.looked) :
        (∃ out' u', finish setup nested' level opened' d t = .ok out' u' ∧
          out'.items.map Item.unplaced = out.items.map Item.unplaced ∧ u.Abreast a x y u' ∧
          (level ≠ .top → u'.cursor.stop = u'.cursor.start)) ∨
        (s.cursor.start < a ∧ a < u.cursor.start ∧ ∀ item ∈ out.items, Clears a e item) := by
      have hlooked := (before_looked s).start
      rcases finish_eq_ok hf hc h with hturn | ⟨c', s', hturn, hshorter, hrest⟩
      · rcases turn_abreast hxy hmake hstrict hn hk hs hnext hpoised hsize hitems opened' hturn with
          ⟨d', u', hturn', hitems', hst', hsettled⟩ | ⟨hlt, hgt, hcrosses⟩
        · exact .inl ⟨d', u', finish_ends hturn', hitems', hst', hsettled rfl⟩
        · have hlt : s.cursor.start < a := Nat.lt_of_le_of_lt hlooked hlt
          exact .inr ⟨hlt, hgt, hcrosses.clears fun item hitem =>
            Nat.lt_of_le_of_lt (hbefore item hitem) hlt⟩
      · have hforward := ((turn_forward hf _ _ _).ok hturn).start
        rcases turn_abreast hxy hmake hstrict hn hk hs hnext hpoised hsize hitems opened' hturn with
          ⟨d', t', hturn', hitems', hst', -⟩ | ⟨hlt, hgt, hcrosses⟩
        · obtain ⟨hs', hnext'⟩ := turn_place hn hmake hstrict hs hnext hturn
          have hsize' : t'.cursor.rest.length ≤ n :=
            Nat.le_trans ((turn_forward hf' _ _ _).ok hturn').length_le hsize
          have hbefore' := (turn_adds hstrict hturn).before hforward hbefore
          rcases ih s'.cursor.rest.length hshorter hs' hnext' hst' hsize' hitems' hbefore' hrest rfl with
            ⟨out', u', hfinish', hitems'', hst'', hsettled⟩ | ⟨hlt, hgt, hclears⟩
          · exact .inl ⟨out', u', (finish_goes hf' hc' hturn').trans hfinish', hitems'', hst'', hsettled⟩
          · exact .inr ⟨Nat.lt_of_le_of_lt hforward hlt, hgt, hclears⟩
        · have hlt : s.cursor.start < a := Nat.lt_of_le_of_lt hlooked hlt
          have hclears := hcrosses.clears fun item hitem =>
            Nat.lt_of_le_of_lt (hbefore item hitem) hlt
          have hend := ((rounds_forward hf _ _ _ _).ok hrest).start
          refine .inr ⟨hlt, Nat.lt_of_lt_of_le hgt hend, fun item hitem => ?_⟩
          rcases finish_adds hf hc hstrict hrest item hitem with hitem | hstart
          · exact hclears item hitem
          · exact .inr (.inl (Nat.le_trans (Nat.le_of_lt hgt) hstart))
    rcases hst with ⟨w, hw⟩ | hst
    · by_cases hskip : Skipped w
      · have hl : level ≠ .path := fun hl => by
          have hnext := hnext hl
          rw [hw.rest] at hnext
          exact not_skipped_of_segment hxy hnext hskip
        obtain ⟨c', s', d', t', hfinish, hfinish', hc₁, hd₁, hs', hle, hshorter, hlength, hjoined⟩ :=
          skip_abreast hxy hf hc hf' hc' hs hw hskip c d opened opened'
        have halike : d'.items.map Item.unplaced = c'.items.map Item.unplaced := by
          rw [hc₁, hd₁, hitems]
        have hbefore' : ∀ item ∈ c'.items, item.span.stop ≤ s'.cursor.start := by
          rw [hc₁]
          exact fun item hitem => Nat.le_trans (hbefore item hitem) hle
        rw [hfinish] at h
        rw [hfinish']
        rcases ih s'.cursor.rest.length hshorter hs' (fun hl' => absurd hl' hl) (.inr hjoined)
          (Nat.le_trans hlength hsize) halike hbefore' h rfl with hsame | ⟨hlt, -⟩
        · exact .inl hsame
        · exact absurd hlt (Nat.not_lt.2 hjoined.start)
      · exact hround (hw.looked hskip)
    · exact hround (.inr hst.looked)

end

/-- **The levels inside are alike in both scans**, however deep they may nest. -/
theorem keeps_inside (hxy : Respaced x y) (hmake : setup.construct = .standard)
    (hstrict : setup.options.relaxed = false) (source : Bytes) (a e n room : Nat) :
    Keeps source a e x y n (inside setup (source.length + 1) room) (inside setup (n + 1) room) := by
  induction room with
  | zero =>
    intro l start start' s t u body hl hs hstarts hst hsize h
    cases h
  | succ room ih =>
    intro l start start' s t u body hl hs hstarts hst hsize h
    have htiled : ∀ item ∈ body.items,
        item.span.start < item.span.stop ∧ Item.Tiled source item := by
      have htiler := tiler_inside hmake hstrict source (room + 1)
      cases l with
      | top => exact absurd rfl hl
      | inside b =>
        obtain ⟨_, _, htiles, -⟩ := htiler.inside hs h
        exact fun item hitem => ⟨(htiles.mem hitem).2.1, (htiles.mem hitem).2.2.2⟩
      | path =>
        obtain ⟨hjoined, -⟩ := htiler.path hs (hstarts rfl) h
        intro item hitem
        obtain ⟨-, h2, -, h4⟩ := hjoined.mem Item.tiled_of_none hitem
        exact ⟨h2, h4⟩
    have hf := inside_forward setup (source.length + 1) room
    have hc := inside_consumes setup source.length room
    have hf' := inside_forward setup (n + 1) room
    have hc' := inside_consumes setup n room
    have h : level setup (source.length + 1) room l s = .ok body u := h
    rw [level_eq, levelWith_eq_ok] at h
    obtain ⟨c, hrun, rfl⟩ := h
    rw [rounds_eq_finish hf hc hs.lt_fuel] at hrun
    rcases finish_abreast hxy hmake hstrict (tiler_inside hmake hstrict source room) ih hf hc hf' hc'
      hs (fun hl => .inl (hstarts hl)) hst hsize (d := .empty) rfl (fun _ hitem => by cases hitem)
      ⟨t.cursor.line, t.cursor.lineStart⟩ hrun with
      ⟨c', u', hrun', hitems, hst', hsettled⟩ | ⟨hlt, hgt, hclears⟩
    · refine .inl ⟨c'.toBlock, u', ?_, ?_, hst', hsettled hl⟩
      · show level setup (n + 1) room l t = .ok c'.toBlock u'
        rw [level_eq, levelWith_eq_ok]
        exact ⟨c', (rounds_eq_finish hf' hc' (Nat.lt_succ_of_le hsize)).trans hrun', rfl⟩
      · show c'.items.reverse.map _ = c.items.reverse.map _
        rw [List.map_reverse, List.map_reverse, hitems]
    · exact .inr ⟨hlt, hgt, misses_of_clears htiled fun item hitem =>
        hclears item (List.mem_reverse.1 hitem)⟩

end Scan

end RebolScan
