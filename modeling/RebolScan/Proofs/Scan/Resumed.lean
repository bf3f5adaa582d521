import RebolScan.Proofs.Scan.Progress
import RebolScan.Proofs.Value.Moved
import RebolScan.Scan.Transcode

/-!
# A scan resumed further on

Nothing behind the position of a scan has a part in what it does next. So a scan of what is left of
a source, from any place that the scan of the whole has come to, **does the same step by step, `k`
bytes earlier**: `Matches`. Lines alone differ, since the line that a place is on depends on what is
before it.

The two scans may have different fuel, and at the top level they may be asked to stop at different
points, so what a round says about going on is compared below the top only.
-/

set_option autoImplicit false

namespace RebolScan

/-- `t` is the place of `s` in a scan that started `k` bytes further on. -/
structure Session.Resumed (k : Nat) (s t : Session) : Prop where
  source : t.cursor.source = s.cursor.source.drop k
  rest : t.cursor.rest = s.cursor.rest
  start : s.cursor.start = t.cursor.start + k
  symbols : t.symbols = s.symbols

/-- The same within a round, with the pending token, and at most `n` bytes left. -/
structure Session.InStep (n k : Nat) (s t : Session) : Prop extends s.Resumed k t where
  stop : s.cursor.stop = t.cursor.stop + k
  size : s.cursor.rest.length ≤ n

/-- The value `w` is what `v` is to a scan that started `k` bytes further on. -/
def Value.Resumed (k : Nat) (v w : Value) : Prop := v.moved 0 = w.moved k

def Fault.Resumed (k : Nat) (f g : Fault) : Prop := f.moved 0 = g.moved k

def Block.Resumed (k : Nat) (b d : Block) : Prop := b.moved 0 = d.moved k

/-- A level has collected in the one scan what it has in the other, after `old`. -/
structure Collected.Follows (k : Nat) (old : List Item) (c d : Collected) : Prop where
  items : ∃ new, c.items = new ++ old ∧ new.map (Item.moved 0) = d.items.map (Item.moved k)
  newLine : c.newLine = d.newLine

theorem Collected.Follows.push {k : Nat} {old : List Item} {c d : Collected}
    (h : c.Follows k old d) {v w : Value} (hv : v.Resumed k w) {span span' : Span}
    (hspan : span = span'.moved k) : (c.push v span).Follows k old (d.push w span') := by
  obtain ⟨new, hitems, hnew⟩ := h.items
  refine ⟨⟨⟨v, c.newLine, span⟩ :: new, by rw [Collected.push, hitems]; rfl, ?_⟩, rfl⟩
  show _ :: _ = _ :: _
  rw [hnew, Item.moved, Item.moved, show v.moved 0 = w.moved k from hv, hspan, h.newLine]
  rfl

theorem Collected.Follows.toBlock {k : Nat} {c d : Collected} (h : c.Follows k [] d) :
    c.toBlock.Resumed k d.toBlock := by
  obtain ⟨new, hitems, hnew⟩ := h.items
  have hmap : c.items.reverse.map (Item.moved 0) = d.items.reverse.map (Item.moved k) := by
    rw [hitems, List.append_nil, List.map_reverse, List.map_reverse, hnew]
  show Series.mk (c.items.reverse.map _) c.newLine = Series.mk (d.items.reverse.map _) d.newLine
  rw [hmap, h.newLine]

namespace Scan

open Session

variable {α β γ δ : Type} {n k : Nat}

/-- The two ends of a step are the same, `k` bytes apart. -/
inductive Alike (n k : Nat) (R : α → β → Prop) :
    EStateM.Result Fault Session α → EStateM.Result Fault Session β → Prop
  | ok {a : α} {b : β} {s t : Session} (hR : R a b) (h : s.InStep n k t) :
      Alike n k R (.ok a s) (.ok b t)
  | error {f g : Fault} {s t : Session} (hf : f.Resumed k g) (h : s.InStep n k t) :
      Alike n k R (.error f s) (.error g t)

/-- Two steps do the same, `k` bytes apart. -/
def Matches (n k : Nat) (R : α → β → Prop) (x : Scan α) (y : Scan β) : Prop :=
  ∀ s t, s.InStep n k t → Alike n k R (x s) (y t)

/-! ## How steps are put together -/

theorem matches_pure {R : α → β → Prop} {a : α} {b : β} (h : R a b) :
    Matches n k R (pure a) (pure b) := fun _ _ hst => .ok h hst

theorem Alike.cases {R : α → β → Prop} {x : EStateM.Result Fault Session α}
    {y : EStateM.Result Fault Session β} (h : Alike n k R x y) :
    (∃ a b s t, x = .ok a s ∧ y = .ok b t ∧ R a b ∧ s.InStep n k t) ∨
      ∃ f g s t, x = .error f s ∧ y = .error g t ∧ f.Resumed k g ∧ s.InStep n k t := by
  cases h with
  | ok hR h => exact .inl ⟨_, _, _, _, rfl, rfl, hR, h⟩
  | error hf h => exact .inr ⟨_, _, _, _, rfl, rfl, hf, h⟩

theorem Alike.bind {R : α → β → Prop} {S : γ → δ → Prop} {x : Scan α} {y : Scan β}
    {f : α → Scan γ} {g : β → Scan δ} {s t : Session} (h : Alike n k R (x s) (y t))
    (hf : ∀ a b, R a b → Matches n k S (f a) (g b)) : Alike n k S ((x >>= f) s) ((y >>= g) t) := by
  obtain ⟨a, b, u, v, hx, hy, hR, huv⟩ | ⟨e, e', u, v, hx, hy, he, huv⟩ := h.cases
  · rw [bind_of_ok hx, bind_of_ok hy]
    exact hf a b hR u v huv
  · rw [bind_of_error hx, bind_of_error hy]
    exact .error he huv

theorem Matches.bind {R : α → β → Prop} {S : γ → δ → Prop} {x : Scan α} {y : Scan β}
    {f : α → Scan γ} {g : β → Scan δ} (h : Matches n k R x y)
    (hf : ∀ a b, R a b → Matches n k S (f a) (g b)) : Matches n k S (x >>= f) (y >>= g) :=
  fun s t hst => (h s t hst).bind hf

theorem Matches.ite {R : α → β → Prop} {c : Prop} [Decidable c] {x x' : Scan α} {y y' : Scan β}
    (h : Matches n k R x y) (h' : Matches n k R x' y') :
    Matches n k R (if c then x else x') (if c then y else y') := by
  split
  · exact h
  · exact h'

/-- The results of two steps, faults among them. -/
inductive Both (k : Nat) (R : α → β → Prop) : Except Fault α → Except Fault β → Prop
  | ok {a : α} {b : β} (h : R a b) : Both k R (.ok a) (.ok b)
  | error {f g : Fault} (h : f.Resumed k g) : Both k R (.error f) (.error g)

theorem Matches.attempt {R : α → β → Prop} {x : Scan α} {y : Scan β} (h : Matches n k R x y) :
    Matches n k (Both k R) (attempt x) (attempt y) := by
  intro s t hst
  obtain ⟨a, b, u, v, hx, hy, hR, huv⟩ | ⟨e, e', u, v, hx, hy, he, huv⟩ := (h s t hst).cases
  · rw [attempt_of_ok hx, attempt_of_ok hy]
    exact .ok (.ok hR) huv
  · rw [attempt_of_error hx, attempt_of_error hy]
    exact .ok (.error he) huv

/-! ## Looking and moving on -/

theorem cursor_matches : Matches n k (fun c d => c.start = d.start + k ∧ c.stop = d.stop + k)
    cursor cursor := fun _ _ hst => .ok ⟨hst.start, hst.stop⟩ hst

theorem site_matches : Matches n k (fun _ _ => True) site site := fun _ _ hst => .ok trivial hst

theorem advance_matches (m : Nat) : Matches n k (fun _ _ => True) (advance m) (advance m) := by
  intro s t hst
  refine .ok trivial ⟨⟨hst.source, ?_, ?_, hst.symbols⟩, ?_, ?_⟩
  · exact congrArg (List.drop m) hst.rest
  · have := hst.start
    show s.cursor.start + m = t.cursor.start + m + k
    omega
  · have := hst.start
    show s.cursor.start + m = t.cursor.start + m + k
    omega
  · have := hst.size
    show (s.cursor.rest.drop m).length ≤ n
    rw [List.length_drop]
    omega

theorem advanceTo_matches {pos pos' : Nat} (h : pos = pos' + k) :
    Matches n k (fun _ _ => True) (advanceTo pos) (advanceTo pos') := by
  refine cursor_matches.bind fun c d hcd => ?_
  rw [show pos - c.start = pos' - d.start by omega]
  exact advance_matches _

theorem byteFrom_matches {pos pos' : Nat} (h : pos = pos' + k) :
    Matches n k (fun b b' => b = b') (byteFrom pos) (byteFrom pos') := by
  intro s t hst
  refine .ok ?_ hst
  show byteAt s.cursor.rest (pos - s.cursor.start) = byteAt t.cursor.rest (pos' - t.cursor.start)
  have := hst.start
  rw [hst.rest, show pos - s.cursor.start = pos' - t.cursor.start by omega]

theorem intern_matches (name : String) :
    Matches n k (fun a b => a = b) (intern name) (intern name) := by
  intro s t hst
  refine .ok ?_ ⟨⟨hst.source, hst.rest, hst.start, ?_⟩, hst.stop, hst.size⟩
  · exact congrArg (fun table : SymbolTable => (table.intern name).1) hst.symbols.symm
  · exact congrArg (fun table : SymbolTable => (table.intern name).2) hst.symbols

/-- Looking at a lexeme brings the pending token into line. -/
theorem look_resumed {s t : Session} (hst : s.Resumed k t) (hn : s.cursor.rest.length ≤ n) :
    s.looked.InStep n k t.looked := by
  have hskip : s.looked.cursor.rest = s.cursor.skipSpace.rest := rfl
  have hskip' : t.looked.cursor.rest = t.cursor.skipSpace.rest := rfl
  have hstart : s.looked.cursor.start = t.looked.cursor.start + k := by
    show s.cursor.start + (s.cursor.rest.takeWhile isSpace).length =
      t.cursor.start + (t.cursor.rest.takeWhile isSpace).length + k
    rw [hst.start, hst.rest]
    omega
  have hrest : t.looked.cursor.rest = s.looked.cursor.rest := by
    rw [hskip, hskip', Cursor.skipSpace, Cursor.skipSpace, hst.rest]
  refine ⟨⟨hst.source, hrest, hstart, hst.symbols⟩, ?_, ?_⟩
  · show s.looked.cursor.start + (Lexeme.ofFront s.looked.cursor.rest).length =
      t.looked.cursor.start + (Lexeme.ofFront t.looked.cursor.rest).length + k
    rw [hstart, hrest]
    omega
  · exact Nat.le_trans (before_looked s).length_le hn

/-! ## Faults -/

/-- What is cut from the rest of a source is what is cut from the source, further on. -/
theorem slice_moved (span : Span) (source : Bytes) :
    (span.moved k).slice source = span.slice (source.drop k) := by
  simp only [Span.slice, Span.moved, between, List.drop_drop]
  rw [show span.start + k = k + span.start by omega,
    show span.stop + k - (k + span.start) = span.stop - span.start by omega]

theorem faultAt_matches (kind : FaultKind) (token : TokenKind) {span span' : Span}
    (h : span = span'.moved k) (site site' : Site) :
    Matches n k (Fault.Resumed k) (faultAt kind token span site)
      (faultAt kind token span' site') := by
  intro s t hst
  refine .ok ?_ ⟨⟨hst.source, hst.rest, hst.start, hst.symbols⟩, hst.stop, hst.size⟩
  have hslice : span.slice s.cursor.source = span'.slice t.cursor.source := by
    rw [h, slice_moved, hst.source]
  show Fault.mk kind token (Utf8.lossy (span.slice s.cursor.source)) (span.moved 0) 0 "" =
    Fault.mk kind token (Utf8.lossy (span'.slice t.cursor.source)) (span'.moved k) 0 ""
  rw [hslice, h]
  rfl

theorem fail_matches {R : α → β → Prop} (kind : FaultKind) (token : TokenKind) {span span' : Span}
    (h : span = span'.moved k) :
    Matches n k R (fail kind token span) (fail kind token span') := by
  refine site_matches.bind fun site site' _ => ?_
  exact (faultAt_matches kind token h site site').bind fun f g hfg => fun _ _ hst => .error hfg hst

theorem invalid_matches {R : α → β → Prop} (token : TokenKind) {span span' : Span}
    (h : span = span'.moved k) : Matches n k R (invalid token span) (invalid token span') :=
  fail_matches _ _ h

theorem tooDeep_matches {R : α → β → Prop} {start start' : Nat} (h : start = start' + k) :
    Matches n k R (tooDeep start) (tooDeep start') := by
  refine cursor_matches.bind fun c d hcd => fail_matches _ _ ?_
  rw [h, hcd.2]
  rfl

section

variable {o p : Options} {old : List Item}

theorem record_matches (hr : p.relaxed = o.relaxed) {f g : Fault} (hfg : f.Resumed k g)
    {c d : Collected} (hcd : c.Follows k old d) :
    Matches n k (Collected.Follows k old) (record ⟨o, .standard⟩ f c)
      (record ⟨p, .standard⟩ g d) := by
  have hkind : f.kind = g.kind := by
    show (f.moved 0).kind = (g.moved k).kind
    rw [show f.moved 0 = g.moved k from hfg]
  have hspan : f.span = g.span.moved k := by
    show (f.moved 0).span = (g.moved k).span
    rw [show f.moved 0 = g.moved k from hfg]
  unfold record
  rw [Fault.isFatal, Fault.isFatal, hkind, hr]
  refine .ite (fun _ _ hst => .error hfg hst) fun s t hst => ?_
  refine .ok (hcd.push ?_ hspan) ⟨⟨hst.source, hst.rest, hst.start, hst.symbols⟩, hst.stop, hst.size⟩
  show (Value.error f).moved 0 = (Value.error g).moved k
  rw [Value.moved_error, Value.moved_error, show f.moved 0 = g.moved k from hfg]

end

/-! ## Paths and constructions -/

theorem block_resumed (kind : BlockKind) {b b' : Block} (h : b.Resumed k b') :
    (Value.block kind b).Resumed k (.block kind b') := by
  show (Value.block kind b).moved 0 = (Value.block kind b').moved k
  rw [Value.moved_block, Value.moved_block, show b.moved 0 = b'.moved k from h]

theorem word?_of_moved {items items' : List Item}
    (h : items.map (Item.moved 0) = items'.map (Item.moved k)) :
    (items.head?.bind fun item => item.value.word?) =
      items'.head?.bind fun item => item.value.word? := by
  rw [← (replaces_moved 0).first_word?, h, (replaces_moved k).first_word?]

theorem mapFirst_plainWord_moved (m : Nat) (items : List Item) :
    (mapFirst plainWord items).map (Item.moved m) =
      mapFirst plainWord (items.map (Item.moved m)) :=
  (replaces_moved m).mapFirst_plainWord (fun _ _ => rfl) items

theorem joinPath_matches (head : TokenKind) {start start' : Nat} (hs : start = start' + k)
    {b b' : Block} (hb : b.Resumed k b') :
    Matches n k (Value.Resumed k) (joinPath head start b)
      (joinPath head start' b') := by
  obtain ⟨hitems, htail⟩ := Series.mk.inj hb
  have hplain : Block.Resumed k { b with items := mapFirst plainWord b.items }
      { b' with items := mapFirst plainWord b'.items } := by
    show Series.mk _ _ = Series.mk _ _
    rw [mapFirst_plainWord_moved, mapFirst_plainWord_moved, hitems, htail]
  refine cursor_matches.bind fun c d hcd => (byteFrom_matches hcd.2).bind fun byte _ hbyte => ?_
  subst hbyte
  dsimp only
  rw [word?_of_moved hitems]
  refine .ite (matches_pure (block_resumed _ hplain)) ?_
  have hnext : d.stop + 1 + k = c.stop + 1 := by
    rw [hcd.2]
    omega
  have hspan : Span.mk start (c.stop + 1) = (Span.mk start' (d.stop + 1)).moved k := by
    rw [hs, ← hnext]
    rfl
  have hset := (advanceTo_matches (n := n) hnext.symm).bind fun _ _ _ =>
    matches_pure (block_resumed .setPath hb)
  generalize (b'.items.head?.bind fun item => item.value.word?) = w
  match w with
  | some (.getWord, _) =>
    refine .ite ?_ (matches_pure (block_resumed _ hplain))
    exact (advanceTo_matches hnext.symm).bind fun _ _ _ => invalid_matches _ hspan
  | none => exact .ite hset (matches_pure (block_resumed _ hb))
  | some (.word, _) => exact .ite hset (matches_pure (block_resumed _ hb))
  | some (.setWord, _) => exact .ite hset (matches_pure (block_resumed _ hb))
  | some (.litWord, _) => exact .ite hset (matches_pure (block_resumed _ hb))
  | some (.refinement, _) => exact .ite hset (matches_pure (block_resumed _ hb))

theorem construct_matches {o p : Options} {start start' : Nat} (hs : start = start' + k)
    {b b' : Block} (hb : b.Resumed k b') :
    Matches n k (Value.Resumed k) (construct ⟨o, .standard⟩ start b)
      (construct ⟨p, .standard⟩ start' b') := by
  have hitems : b.items.map (Item.moved 0) = b'.items.map (Item.moved k) := (Series.mk.inj hb).1
  have hget : Matches n k (fun s t : Session => t.symbols = s.symbols) get get :=
    fun _ _ hst => .ok hst.symbols hst
  refine hget.bind fun s t hsymbols => ?_
  have hvalue : (Constructor.valueOf? b.items s.symbols).map (Value.moved 0) =
      (Constructor.valueOf? b'.items t.symbols).map (Value.moved k) := by
    rw [← Constructor.valueOf?_moved, ← Constructor.valueOf?_moved, hitems, hsymbols]
  dsimp only [Constructor.standard, Constructor.reading]
  refine Matches.bind (R := fun _ _ => True) (fun u v huv => ?_) fun _ _ _ => ?_
  · exact .ok trivial ⟨⟨huv.source, huv.rest, huv.start, hsymbols⟩, huv.stop, huv.size⟩
  · generalize Constructor.valueOf? b.items s.symbols = v? at hvalue
    generalize Constructor.valueOf? b'.items t.symbols = w? at hvalue
    cases v? with
    | some v =>
      cases w? with
      | some w => exact matches_pure (Option.some.inj hvalue)
      | none => cases hvalue
    | none =>
      cases w? with
      | some w => cases hvalue
      | none =>
        refine cursor_matches.bind fun c d hcd => fail_matches _ _ ?_
        rw [hs, hcd.1]
        rfl

/-! ## One round of a level -/

/-- What an element came to, in the two scans. -/
inductive Outcome.Resumed (k : Nat) : Outcome → Outcome → Prop
  | value {v w : Value} (h : v.Resumed k w) : Resumed k (.value v) (.value w)
  | slot : Resumed k .slot .slot
  | lineBreak : Resumed k .lineBreak .lineBreak
  | comment : Resumed k .comment .comment

/-- A scalar has no place in it, so it is the same anywhere. -/
theorem resumed_of_isScalar {v : Value} (h : v.isScalar = true) : v.Resumed k v := by
  cases v with
  | block kind body => cases h
  | object fields => cases h
  | error f => cases h
  | _ => rfl

/-- The levels inside match. -/
def NestedMatches (n k : Nat) (nested nested' : Nested) : Prop :=
  ∀ level, level ≠ .top → ∀ start start', start = start' + k →
    Matches n k (Block.Resumed k) (nested level start) (nested' level start')

/-- A round came to the same. Whether the level goes on is compared below the top. -/
def Turned (k : Nat) (old : List Item) (level : Level) (x y : Collected × Bool) : Prop :=
  x.1.Follows k old y.1 ∧ (level ≠ .top → x.2 = y.2)

section

variable {o p : Options} {old : List Item} {c d : Collected} {start start' : Nat}

theorem turned (level : Level) (hcd : c.Follows k old d) (goesOn : Bool) :
    Matches n k (Turned k old level) (return (c, goesOn)) (return (d, goesOn)) :=
  matches_pure ⟨hcd, fun _ => rfl⟩

/-- At the top what a round says about going on is not compared. -/
theorem turned_top (hcd : c.Follows k old d) (goesOn goesOn' : Bool) :
    Matches n k (Turned k old .top) (return (c, goesOn)) (return (d, goesOn')) :=
  matches_pure ⟨hcd, fun h => absurd rfl h⟩

variable (hr : p.relaxed = o.relaxed) (hs : start = start' + k) (hcd : c.Follows k old d)

include hr hcd

theorem recorded_matches (level : Level) (kind : FaultKind) (token : TokenKind) {span span' : Span}
    (hspan : span = span'.moved k) (site site' : Site) {x y : Bool}
    (hxy : level ≠ .top → x = y) :
    Matches n k (Turned k old level)
      (faultAt kind token span site >>= fun f => record ⟨o, .standard⟩ f c >>= fun c => return (c, x))
      (faultAt kind token span' site' >>= fun f =>
        record ⟨p, .standard⟩ f d >>= fun d => return (d, y)) := by
  refine (faultAt_matches kind token hspan site site').bind fun f g hfg => ?_
  exact (record_matches hr hfg hcd).bind fun c' d' hcd' => matches_pure ⟨hcd', hxy⟩

theorem unclosed_matches (level : Level) (b : Bracket) {token token' : Token}
    (hkind : token.kind = token'.kind) (hstart : token.start = token'.start + k)
    (hstop : token.stop = token'.stop + k) (opened opened' : Site) :
    Matches n k (Turned k old level) (unclosed ⟨o, .standard⟩ b token opened c)
      (unclosed ⟨p, .standard⟩ b token' opened' d) := by
  unfold unclosed
  rw [hkind]
  refine recorded_matches hr hcd level _ _ ?_ opened opened' fun _ => rfl
  rw [hstart, hstop]
  rfl

theorem closer_matches (level : Level) (b : Bracket) {token token' : Token}
    (hkind : token.kind = token'.kind) (hstart : token.start = token'.start + k)
    (hstop : token.stop = token'.stop + k) (opened opened' : Site) :
    Matches n k (Turned k old level) (closer ⟨o, .standard⟩ level b token opened c)
      (closer ⟨p, .standard⟩ level b token' opened' d) := by
  cases level with
  | path => exact turned .path hcd false
  | top =>
    unfold closer
    rw [hkind]
    refine (advanceTo_matches hstop).bind fun _ _ _ => site_matches.bind fun site site' _ => ?_
    refine recorded_matches hr hcd .top _ _ ?_ site site' fun h => absurd rfl h
    rw [hstart, hstop]
    rfl
  | inside b' =>
    refine .ite ?_ (unclosed_matches hr hcd _ b' hkind hstart hstop opened opened')
    exact (advanceTo_matches hstop).bind fun _ _ _ => turned _ hcd false

include hs

theorem separator_matches :
    Matches n k (Turned k old .path) (separator ⟨o, .standard⟩ start c)
      (separator ⟨p, .standard⟩ start' d) := by
  refine cursor_matches.bind fun cur cur' hcur => (byteFrom_matches hcur.2).bind fun b _ hb => ?_
  subst hb
  have hnext : cur.stop + 1 = cur'.stop + 1 + k := by
    rw [hcur.2]
    omega
  refine .ite (turned .path hcd false) ?_
  refine (advanceTo_matches hnext).bind fun _ _ _ => ?_
  refine (byteFrom_matches hnext).bind fun b' _ hb' => ?_
  subst hb'
  refine .ite ?_ (turned .path hcd true)
  refine site_matches.bind fun site site' _ => ?_
  refine recorded_matches hr hcd .path _ _ ?_ site site' fun _ => rfl
  rw [hs, hnext]
  rfl

theorem afterItem_matches (level : Level) :
    Matches n k (Turned k old level) (afterItem ⟨o, .standard⟩ level start c)
      (afterItem ⟨p, .standard⟩ level start' d) := by
  cases level with
  | path => exact separator_matches hr hs hcd
  | top => exact turned_top hcd _ _
  | inside b => exact turned _ hcd true

theorem settle_matches (level : Level) {out out' : Except Fault Outcome}
    (h : Both k (Outcome.Resumed k) out out') :
    Matches n k (Turned k old level) (settle ⟨o, .standard⟩ level start c out)
      (settle ⟨p, .standard⟩ level start' d out') := by
  cases h with
  | ok h =>
    cases h with
    | lineBreak => exact matches_pure ⟨⟨hcd.items, rfl⟩, fun _ => rfl⟩
    | comment => exact turned level hcd true
    | slot =>
      refine cursor_matches.bind fun cur cur' hcur => turned level (hcd.push (resumed_of_isScalar rfl) ?_) true
      rw [hs, hcur.1]
      rfl
    | value hv =>
      refine cursor_matches.bind fun cur cur' hcur =>
        afterItem_matches hr hs (hcd.push hv ?_) level
      rw [hs, hcur.1]
      rfl
  | error hf =>
    refine (record_matches hr hf hcd).bind fun c' d' hcd' => ?_
    exact .ite (turned level hcd' false) (afterItem_matches hr hs hcd' level)

end

section

variable {o p : Options} {nested nested' : Nested} (hn : NestedMatches n k nested nested')

include hn

theorem path_matches (head : TokenKind) {start start' : Nat} (hs : start = start' + k) :
    Matches n k (Value.Resumed k) (path nested head start) (path nested' head start') :=
  (hn .path Level.noConfusion _ _ hs).bind fun _ _ hb => joinPath_matches head hs hb

theorem construction_matches {start start' : Nat} (hs : start = start' + k) :
    Matches n k (Value.Resumed k) (construction ⟨o, .standard⟩ nested start)
      (construction ⟨p, .standard⟩ nested' start') :=
  (hn (.inside .block) Level.noConfusion _ _ hs).bind fun _ _ hb => construct_matches hs hb

theorem carryOut_matches (ho : p.only = o.only) {level : Level} {text : Bytes} {r : Element.Reading}
    (hread : Element.Reads level text r) {start start' : Nat} (hs : start = start' + k) :
    Matches n k (Outcome.Resumed k) (carryOut ⟨o, .standard⟩ nested r start)
      (carryOut ⟨p, .standard⟩ nested' r start') := by
  have hspan (m : Nat) : Span.mk start (start + m) = (Span.mk start' (start' + m)).moved k := by
    show Span.mk start (start + m) = Span.mk (start' + k) (start' + m + k)
    rw [hs, Nat.add_right_comm]
  unfold carryOut
  rw [ho]
  split
  · intro s t hst
    exact .ok .lineBreak ⟨⟨hst.source, hst.rest, hst.start, hst.symbols⟩, hst.stop, hst.size⟩
  · exact matches_pure .slot
  · rename_i v hv
    exact matches_pure (.value (resumed_of_isScalar (hread.isScalar_of_value hv)))
  · refine (intern_matches _).bind fun x _ hx => matches_pure (.value ?_)
    rw [hx]
    rfl
  · refine (intern_matches _).bind fun x _ hx => matches_pure (.value ?_)
    rw [hx]
    rfl
  · refine .ite (fail_matches _ _ (hspan _)) ?_
    refine (hn (.inside _) Level.noConfusion _ _ hs).bind fun b b' hb => matches_pure (.value ?_)
    exact block_resumed _ hb
  · exact (construction_matches hn hs).bind fun v w hvw => matches_pure (.value hvw)
  · exact invalid_matches _ (hspan _)
  · exact matches_pure .comment

theorem perform_matches (ho : p.only = o.only) {level : Level} {text : Bytes} {r : Element.Reading}
    (hread : Element.Reads level text r) {start start' : Nat} (hs : start = start' + k) :
    Matches n k (Outcome.Resumed k) (perform ⟨o, .standard⟩ nested r start)
      (perform ⟨p, .standard⟩ nested' r start') := by
  unfold perform
  split
  · exact (path_matches hn _ hs).bind fun v w hvw => matches_pure (.value hvw)
  · exact (advance_matches _).bind fun _ _ _ => carryOut_matches hn ho hread hs

variable (hr : p.relaxed = o.relaxed) (ho : p.only = o.only)

include hr ho

/-- **A round does the same from a place that has been come to in the two ways.** -/
theorem turn_alike (level : Level) {old : List Item} {c d : Collected} (hcd : c.Follows k old d)
    (opened opened' : Site) {s t : Session} (hst : s.Resumed k t) (hsize : s.cursor.rest.length ≤ n) :
    Alike n k (Turned k old level) (turn ⟨o, .standard⟩ nested level opened c s)
      (turn ⟨p, .standard⟩ nested' level opened' d t) := by
  have hlook := look_resumed hst hsize
  have hread := s.reading_reads level
  have hsame : t.reading level = s.reading level := by
    rw [reading, reading, hlook.rest]
  have hkind : s.token.kind = t.token.kind := by
    show (Lexeme.ofFront s.looked.cursor.rest).kind = (Lexeme.ofFront t.looked.cursor.rest).kind
    rw [hlook.rest]
  rw [turn_apply, turn_apply, hsame]
  have hitem : Alike n k (Turned k old level)
      (item ⟨o, .standard⟩ nested level (s.reading level) s.looked.cursor.start c s.looked)
      (item ⟨p, .standard⟩ nested' level (s.reading level) t.looked.cursor.start d t.looked) :=
    ((perform_matches hn ho hread hlook.start).attempt.bind fun _ _ hout =>
      settle_matches hr hlook.start hcd level hout) _ _ hlook
  cases (s.reading level).element with
  | endOfInput =>
    cases level with
    | inside b =>
      exact unclosed_matches hr hcd _ b hkind hlook.start hlook.stop opened opened' _ _ hlook
    | top => exact turned .top hcd false _ _ hlook
    | path => exact turned .path hcd false _ _ hlook
  | closer b =>
    exact closer_matches hr hcd level b hkind hlook.start hlook.stop opened opened' _ _ hlook
  | _ => exact hitem

/-! ## Levels -/

/-- The rounds of a level match below the top, with fuel of their own. -/
theorem rounds_alike (hf : ∀ l start, Forward (nested l start)) (hc : Consumes nested)
    {level : Level} (hl : level ≠ .top) {old : List Item} (opened opened' : Site) {fuel fuel' : Nat}
    {c d : Collected} (hcd : c.Follows k old d) {s t : Session} (hst : s.InStep n k t)
    (hfuel : s.cursor.rest.length < fuel) (hfuel' : s.cursor.rest.length < fuel') :
    Alike n k (Collected.Follows k old)
      (rounds ⟨o, .standard⟩ nested level opened fuel c s)
      (rounds ⟨p, .standard⟩ nested' level opened' fuel' d t) := by
  induction fuel generalizing fuel' c d s t with
  | zero => exact absurd hfuel (Nat.not_lt_zero _)
  | succ fuel ih =>
    cases fuel' with
    | zero => exact absurd hfuel' (Nat.not_lt_zero _)
    | succ fuel' =>
      have hturn := turn_alike hn hr ho level hcd opened opened' hst.toResumed hst.size
      obtain ⟨⟨c₁, goesOn⟩, ⟨d₁, goesOn'⟩, u, v, hx, hy, ⟨hcd₁, hgoes⟩, huv⟩ |
        ⟨e, e', u, v, hx, hy, he, huv⟩ := hturn.cases
      · rw [rounds, rounds, bind_of_ok hx, bind_of_ok hy]
        obtain rfl : goesOn = goesOn' := hgoes hl
        cases goesOn with
        | true =>
          have hlt : u.cursor.rest.length < s.cursor.rest.length := turn_shorter hf hc hx
          exact ih hcd₁ huv (by omega) (by omega)
        | false => exact .ok hcd₁ huv
      · rw [rounds, rounds, bind_of_error hx, bind_of_error hy]
        exact .error he huv

theorem levelWith_matches (hf : ∀ l start, Forward (nested l start)) (hc : Consumes nested)
    {level : Level} (hl : level ≠ .top) {fuel fuel' : Nat} (hfuel : n < fuel) (hfuel' : n < fuel') :
    Matches n k (Block.Resumed k) (levelWith ⟨o, .standard⟩ nested fuel level)
      (levelWith ⟨p, .standard⟩ nested' fuel' level) := by
  refine site_matches.bind fun opened opened' _ => ?_
  refine Matches.bind (R := Collected.Follows k []) (fun s t hst => ?_) fun _ _ hcd =>
    matches_pure hcd.toBlock
  have hempty : Collected.empty.Follows k [] .empty := ⟨⟨[], rfl, rfl⟩, rfl⟩
  exact rounds_alike hn hr ho hf hc hl opened opened' hempty hst
    (Nat.lt_of_le_of_lt hst.size hfuel) (Nat.lt_of_le_of_lt hst.size hfuel')

end

section

variable {o p : Options} (hr : p.relaxed = o.relaxed) (ho : p.only = o.only) {fuel fuel' : Nat}
  (hfuel : n < fuel + 1) (hfuel' : n < fuel' + 1)

include hr ho hfuel hfuel'

/-- **A level below the top matches itself**, by induction on the room inside it. -/
theorem inside_matches (room : Nat) :
    NestedMatches n k (inside ⟨o, .standard⟩ (fuel + 1) room)
      (inside ⟨p, .standard⟩ (fuel' + 1) room) := by
  induction room with
  | zero => exact fun _ _ _ _ hs => tooDeep_matches hs
  | succ room ih =>
    intro l hl start start' _
    show Matches n k (Block.Resumed k) (level _ _ room l) (level _ _ room l)
    rw [level_eq, level_eq]
    exact levelWith_matches ih hr ho (inside_forward _ _ _) (inside_consumes _ _ _) hl hfuel hfuel'

end

end Scan

end RebolScan
