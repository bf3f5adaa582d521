import RebolScan.Proofs.Scan.Counted
import RebolScan.Proofs.Scan.Tiling
import RebolScan.Proofs.Scan.Triple
import RebolScan.Proofs.Value.Nesting

/-!
# The nesting limit

Raising the limit changes nothing for a source that stayed within it: **a step with more room inside
it does the same, or the one with less is refused a level** (`Widens`). A refusal is fatal, so it
travels outwards through relaxed levels as well, and nothing that was refused goes on in another way.

And the limit says how deep values nest: **what a level collects nests no deeper than the room it
has** (`level_bounded`), because every block, paren, path and construction is a level inside it.
-/

set_option autoImplicit false

namespace RebolScan

/-- The same options with another limit. -/
def Options.limited (o : Options) (maxDepth : Nat) : Options := { o with maxDepth }

namespace Scan

variable {α β : Type} {setup : Setup}

/-! ## The limit is the room of the top level -/

section

variable {o : Options} {make : Constructor} {d : Nat} {nested : Nested}

/-- A round asks for everything that the options say, but not for the limit. -/
theorem turn_limited : turn ⟨o.limited d, make⟩ nested = turn ⟨o, make⟩ nested := rfl

theorem rounds_limited (level : Level) (opened : Site) (fuel : Nat) (c : Collected) :
    rounds ⟨o.limited d, make⟩ nested level opened fuel c =
      rounds ⟨o, make⟩ nested level opened fuel c := by
  induction fuel generalizing c with
  | zero => rfl
  | succ fuel ih => simp only [rounds, turn_limited, ih]

theorem levelWith_limited (fuel : Nat) (l : Level) :
    levelWith ⟨o.limited d, make⟩ nested fuel l = levelWith ⟨o, make⟩ nested fuel l := by
  simp only [levelWith, rounds_limited]

theorem level_limited (fuel room : Nat) (l : Level) :
    level ⟨o.limited d, make⟩ fuel room l = level ⟨o, make⟩ fuel room l := by
  induction room generalizing l with
  | zero => exact levelWith_limited fuel l
  | succ room ih => simp only [level, levelWith_limited, ih]

/-- The whole scan with a limit of `d`. -/
theorem scan_limited (source : Bytes) :
    Setup.scan ⟨o.limited d, make⟩ source = level ⟨o, make⟩ (source.length + 1) d .top :=
  level_limited _ _ _

end

/-! ## More room -/

/-- `y` does what `x` does, unless `x` is refused a level. -/
def Widens (x y : Scan α) : Prop :=
  ∀ s, y s = x s ∨ ∃ f t, x s = .error f t ∧ f.kind = .tooDeep

theorem Widens.refl (x : Scan α) : Widens x x := fun _ => .inl rfl

theorem Widens.bind {x y : Scan α} {k l : α → Scan β} (hx : Widens x y)
    (hk : ∀ a, Widens (k a) (l a)) : Widens (x >>= k) (y >>= l) := by
  intro s
  rcases hx s with heq | ⟨f, t, hf, hdeep⟩
  · cases hxs : x s with
    | ok a t =>
      rw [bind_of_ok hxs, bind_of_ok (heq.trans hxs)]
      exact hk a t
    | error f t =>
      rw [bind_of_error hxs, bind_of_error (heq.trans hxs)]
      exact .inl rfl
  · exact .inr ⟨f, t, bind_of_error hf, hdeep⟩

theorem Widens.ite {c : Prop} [Decidable c] {x y x' y' : Scan α} (h : Widens x y)
    (h' : Widens x' y') : Widens (if c then x else x') (if c then y else y') := by
  split
  · exact h
  · exact h'

/-- Refusing every level leaves everything open. -/
theorem tooDeep_widens (start : Nat) (y : Scan α) : Widens (tooDeep start) y :=
  fun _ => .inr ⟨_, _, rfl, rfl⟩

/-- A level hands a refusal on, be it relaxed or not. -/
theorem settle_tooDeep {level : Level} {start : Nat} {c : Collected} {f : Fault}
    (hf : f.kind = .tooDeep) (s : Session) :
    settle setup level start c (.error f) s = .error f s := by
  have hfatal : f.isFatal = true := by simp [Fault.isFatal, hf]
  rw [settle, record, if_pos (by simp [hfatal])]
  rfl

section

variable {narrow wide : Nested} (hn : ∀ l start, Widens (narrow l start) (wide l start))

include hn

theorem path_widens (head : TokenKind) (start : Nat) :
    Widens (path narrow head start) (path wide head start) := (hn _ _).bind fun _ => .refl _

theorem construction_widens (start : Nat) :
    Widens (construction setup narrow start) (construction setup wide start) :=
  (hn _ _).bind fun _ => .refl _

theorem carryOut_widens (r : Element.Reading) (start : Nat) :
    Widens (carryOut setup narrow r start) (carryOut setup wide r start) := by
  unfold carryOut
  cases r.element with
  | opener b => exact .ite (.refl _) ((hn _ _).bind fun _ => .refl _)
  | construct => exact (construction_widens hn _).bind fun _ => .refl _
  | _ => exact .refl _

theorem perform_widens (r : Element.Reading) (start : Nat) :
    Widens (perform setup narrow r start) (perform setup wide r start) := by
  unfold perform
  cases r.element with
  | pathHead kind => exact (path_widens hn _ _).bind fun _ => .refl _
  | _ => exact (Widens.refl _).bind fun _ => carryOut_widens hn _ _

theorem item_widens (level : Level) (r : Element.Reading) (start : Nat) (c : Collected) :
    Widens (item setup narrow level r start c) (item setup wide level r start c) := by
  intro s
  have hperform : Widens (perform setup narrow r start) (perform setup wide r start) :=
    perform_widens hn r start
  rcases hperform s with heq | ⟨f, t, hf, hdeep⟩
  · left
    unfold item
    cases hp : perform setup narrow r start s with
    | ok out t => rw [bind_of_ok (attempt_of_ok hp), bind_of_ok (attempt_of_ok (heq.trans hp))]
    | error f t =>
      rw [bind_of_ok (attempt_of_error hp), bind_of_ok (attempt_of_error (heq.trans hp))]
  · right
    refine ⟨f, t, ?_, hdeep⟩
    rw [item, bind_of_ok (attempt_of_error hf)]
    exact settle_tooDeep hdeep t

theorem turn_widens (level : Level) (opened : Site) (c : Collected) :
    Widens (turn setup narrow level opened c) (turn setup wide level opened c) := by
  intro s
  rcases (s.reading level).element.isItem_cases with he | ⟨b, he⟩ | hitem
  · rw [turn_apply, turn_apply, he]
    exact .inl rfl
  · rw [turn_apply, turn_apply, he]
    exact .inl rfl
  · rw [turn_item hitem, turn_item hitem]
    exact item_widens hn _ _ _ _ _

theorem rounds_widens (level : Level) (opened : Site) (fuel : Nat) (c : Collected) :
    Widens (rounds setup narrow level opened fuel c) (rounds setup wide level opened fuel c) := by
  induction fuel generalizing c with
  | zero => exact .refl _
  | succ fuel ih =>
    exact (turn_widens hn level opened c).bind fun ⟨c', goesOn⟩ => .ite (ih c') (.refl _)

theorem levelWith_widens (fuel : Nat) (l : Level) :
    Widens (levelWith setup narrow fuel l) (levelWith setup wide fuel l) :=
  (Widens.refl _).bind fun _ => (rounds_widens hn _ _ _ _).bind fun _ => .refl _

end

/-- **More room for levels inside changes nothing, unless less of it was too little.** -/
theorem level_widens (fuel : Nat) {room room' : Nat} (hle : room ≤ room') (l : Level) :
    Widens (level setup fuel room l) (level setup fuel room' l) := by
  induction room generalizing room' l with
  | zero =>
    rw [level_eq, level_eq]
    exact levelWith_widens (fun _ start => tooDeep_widens start _) fuel l
  | succ room ih =>
    cases room' with
    | zero => exact absurd hle (Nat.not_succ_le_zero _)
    | succ room' => exact levelWith_widens (fun l _ => ih (Nat.le_of_succ_le_succ hle) l) fuel l

/-! ## How deep values nest -/

/-- What has been collected nests at most `n` levels deep. -/
def Bounded (n : Nat) (c : Collected) : Prop := nestingItems c.items ≤ n

/-- The levels inside collect what nests less deep than `n`. -/
def NestsBelow (n : Nat) (nested : Nested) : Prop :=
  ∀ l start s t body, nested l start s = .ok body t → nestingItems body.items < n

theorem Bounded.push {n : Nat} {c : Collected} {v : Value} (hc : Bounded n c)
    (hv : v.nesting ≤ n) (span : Span) : Bounded n (c.push v span) := by
  show nestingItems (_ :: c.items) ≤ n
  rw [nestingItems_cons]
  exact Nat.max_le.2 ⟨hv, hc⟩

/-- What is constructed nests no deeper than what it is constructed of. -/
theorem nesting_valueOf_le {spec : List Item} {symbols : SymbolTable} {v : Value}
    (h : Constructor.valueOf? spec symbols = some v) : v.nesting ≤ nestingItems spec := by
  rcases valueOf_cases h with ⟨hscalar, -⟩ | ⟨body, hbody, block, fields, hvalue, rfl, hfields⟩
  · exact Nat.le_trans (Nat.le_of_eq (Value.nesting_of_isScalar hscalar)) (Nat.zero_le _)
  · refine Nat.le_trans ?_ (nesting_le_of_mem hbody)
    rw [hvalue, Value.nesting_object, Value.nesting_block]
    exact Nat.le_succ_of_le
      (nestingFields_le.2 fun ⟨name, item⟩ hmem => nesting_le_of_mem (hfields name item hmem))

/-- A path is one node over its segments. -/
theorem Joins.nesting {head : TokenKind} {segments : Block} {s t : Session} {v : Value}
    (h : Joins head segments s v t) : v.nesting = nestingItems segments.items + 1 := by
  cases h with
  | litPath | getPath => rw [Value.nesting_block, nestingItems_plainWord]
  | path | setPath => rw [Value.nesting_block]

section

variable {nested : Nested} {n : Nat} {s t : Session}

/-- **No element nests deeper than a level inside and itself.** -/
theorem Performed.nesting (hmake : setup.construct = .standard) (hn : NestsBelow n nested)
    {level : Level} {r : Element.Reading} {start : Nat} {text : Bytes} {v : Value}
    (hr : Element.Reads level text r) (h : Performed setup nested r start s (.value v) t) :
    v.nesting ≤ n := by
  cases h with
  | head he hpath =>
    obtain ⟨segments, u, hsegments, hjoin⟩ := bind_eq_ok.1 hpath
    rw [(joinPath_eq_ok hjoin).nesting]
    exact hn _ _ _ _ _ hsegments
  | consumed h =>
    generalize he : r.element = e at h
    cases h with
    | value =>
      rw [Value.nesting_of_isScalar (hr.isScalar_of_value he)]
      exact Nat.zero_le _
    | word kind name => exact Nat.zero_le _
    | issue name => exact Nat.zero_le _
    | opener b hbody =>
      rw [Value.nesting_block]
      exact hn _ _ _ _ _ hbody
    | construct hc =>
      obtain ⟨spec, u, hspec, hc⟩ := bind_eq_ok.1 hc
      obtain ⟨hv, -⟩ := construct_eq_ok hc
      rw [hmake] at hv
      exact Nat.le_trans (nesting_valueOf_le hv) (Nat.le_of_lt (hn _ _ _ _ _ hspec))

/-- A recorded fault is a value without parts. -/
theorem record_bounded {f : Fault} {c : Collected} (hc : Bounded n c) :
    Ends (record setup f c) s (fun c _ => Bounded n c) fun _ _ => True := by
  apply Ends.ite
  · intro _
    exact .throw trivial
  · intro _
    exact hc.push (Nat.zero_le _) _

theorem placeless_bounded : Placeless setup (fun c _ => Bounded n c) fun _ _ => True where
  moved _ hc := hc
  recorded _ _ _ _ _ _ hc := by
    refine Ends.after rfl ?_
    apply (record_bounded hc).bind
    intro c t ht
    exact .pure ht

/-- What one round adds nests no deeper than a level inside and its opener. -/
theorem turn_bounded (hmake : setup.construct = .standard) (hn : NestsBelow n nested)
    (level : Level) (opened : Site) (c : Collected) :
    Triple (fun _ => Bounded n c) (turn setup nested level opened c) (fun r _ => Bounded n r.1)
      fun _ _ => True := by
  apply placeless_bounded.turn
  intro c s hc level hitem
  cases hp : perform setup nested (s.reading level) s.looked.cursor.start s.looked with
  | error f t => exact (ends_of_error hp).2 (record_bounded hc)
  | ok out t =>
    refine (ends_of_ok hp).2 ?_
    have hperformed := perform_eq_ok hitem hp
    cases out with
    | value v => exact hc.push (hperformed.nesting hmake hn (s.reading_reads level))
    | slot => exact hc.push (Nat.zero_le _)
    | lineBreak | comment => exact hc

theorem levelWith_bounded (hmake : setup.construct = .standard) (hn : NestsBelow n nested)
    {fuel : Nat} {l : Level} {body : Block} (h : levelWith setup nested fuel l s = .ok body t) :
    nestingItems body.items ≤ n := by
  have hends : Ends (levelWith setup nested fuel l) s (Yields fun c _ => Bounded n c)
      fun _ _ => True := levelWith_collects (Nat.zero_le n) (turn_bounded hmake hn l)
  obtain ⟨c, rfl, hc⟩ := hends.ok h
  show nestingItems c.items.reverse ≤ n
  rw [nestingItems_reverse]
  exact hc

end

/-- **What a level collects nests no deeper than the room it has.** -/
theorem level_bounded (hmake : setup.construct = .standard) {fuel room : Nat} {l : Level}
    {s t : Session} {body : Block} (h : level setup fuel room l s = .ok body t) :
    nestingItems body.items ≤ room := by
  induction room generalizing l s t body with
  | zero =>
    refine levelWith_bounded hmake ?_ h
    intro l start s t body h
    cases h
  | succ room ih =>
    refine levelWith_bounded hmake ?_ h
    intro l start s t body h
    exact Nat.lt_succ_of_le (ih h)

end Scan

/-! ## The limit of a scan -/

/-- A scan that its limit does not refuse a level is the same under every higher limit. -/
theorem transcodeWith_limited (construct : Constructor) (source : Bytes) (symbols : SymbolTable)
    (options : Options) {d d' : Nat} (hle : d ≤ d')
    (h : ∀ failure, (transcodeWith construct source symbols (options.limited d)).1 = .error failure →
      failure.fault.kind ≠ .tooDeep) :
    transcodeWith construct source symbols (options.limited d') =
      transcodeWith construct source symbols (options.limited d) := by
  unfold transcodeWith at h ⊢
  simp only [Scan.scan_limited] at h ⊢
  have hwidens : Scan.Widens (Scan.level ⟨options, construct⟩ (source.length + 1) d .top)
      (Scan.level ⟨options, construct⟩ (source.length + 1) d' .top) :=
    Scan.level_widens (source.length + 1) hle .top
  rcases hwidens (Session.start source symbols) with heq | ⟨f, t, hf, hdeep⟩
  · rw [heq]
  · rw [hf] at h
    exact absurd hdeep (h _ rfl)

/-- The values of a scan nest no deeper than its limit. -/
theorem transcode_nesting {source : Bytes} {symbols table : SymbolTable} {options : Options}
    {t : Transcoded} (h : transcode source symbols options = (.ok t, table)) :
    nestingItems t.values.items ≤ options.maxDepth := by
  obtain ⟨s, hscan, -, -⟩ := transcodeWith_eq_ok.1 h
  exact Scan.level_bounded rfl hscan

/-- **The nesting limit is monotone and exact.** A scan that is not refused a level comes to the same
under a higher limit, in its result and in its symbols. With the standard constructor no value nests
deeper than the limit. And the scan is the one that counts its levels, where whatever reading a level
inside comes to leaves the count as it was. -/
theorem nesting_limit (construct : Constructor) (source : Bytes) (symbols : SymbolTable)
    (options : Options) {d d' : Nat} (hle : d ≤ d') :
    ((∀ failure,
        (transcodeWith construct source symbols (options.limited d)).1 = .error failure →
          failure.fault.kind ≠ .tooDeep) →
      transcodeWith construct source symbols (options.limited d') =
        transcodeWith construct source symbols (options.limited d)) ∧
    (∀ t table, transcode source symbols (options.limited d) = (.ok t, table) →
      ∀ item ∈ t.values.items, item.value.nesting ≤ d) ∧
    (∀ s, CountedScan.scan ⟨options.limited d, construct⟩ source ⟨s, 0⟩ =
      CountedScan.lift (Setup.scan ⟨options.limited d, construct⟩ source) ⟨s, 0⟩) ∧
    (∀ fuel bound l start s,
      let setup : Setup := ⟨options.limited d, construct⟩
      CountedScan.depthAfter
        (CountedScan.deeper setup (CountedScan.level setup fuel bound) l start) s = s.depth) := by
  refine ⟨transcodeWith_limited construct source symbols options hle, ?_, ?_, ?_⟩
  · intro t table h
    exact nestingItems_le.1 (transcode_nesting h)
  · exact CountedScan.counted_eq _ source
  · intro fuel bound l start s
    exact CountedScan.depthAfter_deeper _ fuel bound l start s

/-- `[a/1]` needs two levels, and a third changes nothing. -/
theorem nesting_limit_two :
    transcode [0x5B, 0x61, 0x2F, 0x31, 0x5D] .initial (Options.standard.limited 3) =
      transcode [0x5B, 0x61, 0x2F, 0x31, 0x5D] .initial (Options.standard.limited 2) ∧
    ∃ t table, transcode [0x5B, 0x61, 0x2F, 0x31, 0x5D] .initial (Options.standard.limited 2) =
      (.ok t, table) ∧ t.values.items.map (·.value.nesting) = [2] := by
  have hnesting : ((transcode [0x5B, 0x61, 0x2F, 0x31, 0x5D] .initial
      (Options.standard.limited 2)).1.toOption.map fun t =>
        t.values.items.map (·.value.nesting)) = some [2] := by decide +kernel
  have hlimit := nesting_limit .standard [0x5B, 0x61, 0x2F, 0x31, 0x5D] .initial .standard
    (show 2 ≤ 3 by decide)
  cases h : transcode [0x5B, 0x61, 0x2F, 0x31, 0x5D] .initial (Options.standard.limited 2) with
  | mk result table =>
    rw [h] at hnesting
    cases result with
    | error failure => cases hnesting
    | ok t =>
      have hok : (transcodeWith .standard [0x5B, 0x61, 0x2F, 0x31, 0x5D] .initial
        (Options.standard.limited 2)).1 = .ok t := congrArg (·.1) h
      refine ⟨?_, t, table, rfl, Option.some.inj hnesting⟩
      refine (hlimit.1 fun failure hfailure => ?_).trans h
      rw [hok] at hfailure
      cases hfailure

end RebolScan
