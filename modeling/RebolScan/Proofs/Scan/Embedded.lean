import RebolScan.Proofs.Scan.Located
import RebolScan.Proofs.Scan.Reading

/-!
# The faults among the values

A relaxed scan keeps a fault twice, in the list of faults in the order of time, and as an error value
at the place where it was met. The list grows as the scan goes on; the values stand in levels that
are still open, and a level may be dropped again: a get-path with a colon behind it is refused when
all of it has been read. So **the errors among the values are the recorded faults, in their order,
without those that a path which was refused later had in it** (`echoed_faults`).

`Accounted s shown t` is what is known of the way from `s` to `t`: what was recorded on it, of which
`shown` is still there, and that all of it lies between the two places. Ways are put together as the
scan goes on, and the last fact is what a refused path needs to cover what was recorded in it.
-/

set_option autoImplicit false

namespace RebolScan

open Ascii Finder

/-! ## Recorded and shown -/

/-- The fault refuses a path for the colon behind it, and the text of `f` lies in that path. -/
structure Fault.Covers (source : Bytes) (g f : Fault) : Prop where
  kind : g.kind = .invalid .path
  colon : byteAt source (g.span.stop - 1) = colon
  start : g.span.start ≤ f.span.start
  stop : f.span.stop ≤ g.span.stop

/-- The faults of `shown` are the recorded ones in their order, without some that a later one
covers. -/
inductive Shows (source : Bytes) : List Fault → List Fault → Prop
  | nil : Shows source [] []
  | keep {f : Fault} {recorded shown : List Fault} (h : Shows source recorded shown) :
      Shows source (f :: recorded) (f :: shown)
  | drop {f g : Fault} {recorded shown : List Fault} (hg : g ∈ recorded) (hcovers : g.Covers source f)
      (h : Shows source recorded shown) : Shows source (f :: recorded) shown

namespace Shows

variable {source : Bytes} {recorded shown more moreShown : List Fault} {f g : Fault}

/-- Nothing is reordered, invented or repeated. -/
theorem sublist (h : Shows source recorded shown) : shown.Sublist recorded := by
  induction h with
  | nil => exact .slnil
  | keep _ ih => exact .cons_cons _ ih
  | drop _ _ _ ih => exact .cons _ ih

/-- Nothing is missing but what is covered. -/
theorem mem_or_covered (h : Shows source recorded shown) (hf : f ∈ recorded) :
    f ∈ shown ∨ ∃ g ∈ recorded, g.Covers source f := by
  induction h with
  | nil => cases hf
  | keep _ ih =>
    rcases List.mem_cons.1 hf with rfl | hf
    · exact .inl List.mem_cons_self
    · rcases ih hf with hshown | ⟨g, hg, hcovers⟩
      · exact .inl (List.mem_cons_of_mem _ hshown)
      · exact .inr ⟨g, List.mem_cons_of_mem _ hg, hcovers⟩
  | drop hg hcovers _ ih =>
    rcases List.mem_cons.1 hf with rfl | hf
    · exact .inr ⟨_, List.mem_cons_of_mem _ hg, hcovers⟩
    · rcases ih hf with hshown | ⟨g, hg, hcovers⟩
      · exact .inl hshown
      · exact .inr ⟨g, List.mem_cons_of_mem _ hg, hcovers⟩

theorem append (h : Shows source recorded shown) (hmore : Shows source more moreShown) :
    Shows source (recorded ++ more) (shown ++ moreShown) := by
  induction h with
  | nil => exact hmore
  | keep _ ih => exact .keep ih
  | drop hg hcovers _ ih => exact .drop (List.mem_append_left _ hg) hcovers ih

/-- A fault that covers all that was recorded is shown in its place. -/
theorem refused (h : ∀ f ∈ recorded, g.Covers source f) : Shows source (recorded ++ [g]) [g] := by
  induction recorded with
  | nil => exact .keep .nil
  | cons f recorded ih =>
    refine .drop (List.mem_append_right _ (List.mem_singleton_self g)) (h f List.mem_cons_self) ?_
    exact ih fun f hf => h f (List.mem_cons_of_mem _ hf)

end Shows

/-! ## Ways -/

/-- From `s` to `t` faults were recorded about what lies between, and `shown` are those of them that
are still among the values. What is pending in `t` may have one byte that is not consumed. -/
structure Session.Accounted (source : Bytes) (s : Session) (shown : List Fault) (t : Session) :
    Prop where
  start : s.cursor.start ≤ t.cursor.start
  recorded : ∃ new, t.faults = new ++ s.faults ∧ Shows source new.reverse shown ∧
    ∀ f ∈ new, s.cursor.start ≤ f.span.start ∧ f.span.stop ≤ t.cursor.start + 1

namespace Session

variable {source : Bytes} {s t u : Session} {shown more : List Fault} {f : Fault}

theorem accounted_nil (hstart : s.cursor.start ≤ t.cursor.start) (hfaults : t.faults = s.faults) :
    s.Accounted source [] t :=
  ⟨hstart, [], hfaults, .nil, fun _ hf => absurd hf List.not_mem_nil⟩

theorem Accounted.append (hst : s.Accounted source shown t) (htu : t.Accounted source more u) :
    s.Accounted source (shown ++ more) u := by
  obtain ⟨hst, new, ht, hshown, hbounds⟩ := hst
  obtain ⟨htu, new', hu, hmore, hbounds'⟩ := htu
  refine ⟨Nat.le_trans hst htu, new' ++ new, ?_, ?_, fun f hf => ?_⟩
  · rw [hu, ht, List.append_assoc]
  · rw [List.reverse_append]
    exact hshown.append hmore
  · rcases List.mem_append.1 hf with hf | hf
    · obtain ⟨h1, h2⟩ := hbounds' f hf
      exact ⟨Nat.le_trans hst h1, h2⟩
    · obtain ⟨h1, h2⟩ := hbounds f hf
      exact ⟨h1, Nat.le_trans h2 (Nat.succ_le_succ htu)⟩

/-- The scan goes on, and nothing is recorded. -/
theorem Accounted.forward (h : s.Accounted source shown t) (hstart : t.cursor.start ≤ u.cursor.start)
    (hfaults : u.faults = t.faults) : s.Accounted source shown u := by
  have hnil : t.Accounted source [] u := accounted_nil hstart hfaults
  have happend := h.append hnil
  rwa [List.append_nil] at happend

/-- A fault about what lies between is recorded. -/
theorem Accounted.record (h : s.Accounted source shown t) (hfaults : u.faults = f :: t.faults)
    (hstart : t.cursor.start ≤ u.cursor.start) (h1 : s.cursor.start ≤ f.span.start)
    (h2 : f.span.stop ≤ u.cursor.start + 1) : s.Accounted source (shown ++ [f]) u := by
  obtain ⟨hst, new, ht, hshown, hbounds⟩ := h
  refine ⟨Nat.le_trans hst hstart, f :: new, ?_, ?_, fun g hg => ?_⟩
  · rw [hfaults, ht]
    rfl
  · rw [List.reverse_cons]
    exact hshown.append (.keep .nil)
  · rcases List.mem_cons.1 hg with rfl | hg
    · exact ⟨h1, h2⟩
    · obtain ⟨h3, h4⟩ := hbounds g hg
      exact ⟨h3, Nat.le_trans h4 (Nat.succ_le_succ hstart)⟩

/-- A path that starts in `s` is refused, and all that was recorded in it goes with it. -/
theorem Accounted.refused (h : s.Accounted source shown t) (hfaults : u.faults = f :: t.faults)
    (hkind : f.kind = .invalid .path) (hcolon : byteAt source (f.span.stop - 1) = colon)
    (hspan : f.span.start = s.cursor.start) (hstop : f.span.stop = u.cursor.start)
    (hlt : t.cursor.start < u.cursor.start) : s.Accounted source [f] u := by
  obtain ⟨hst, new, ht, -, hbounds⟩ := h
  refine ⟨by omega, f :: new, ?_, ?_, fun g hg => ?_⟩
  · rw [hfaults, ht]
    rfl
  · rw [List.reverse_cons]
    refine .refused fun g hg => ?_
    obtain ⟨h3, h4⟩ := hbounds g (List.mem_reverse.1 hg)
    exact ⟨hkind, hcolon, by omega, by omega⟩
  · rcases List.mem_cons.1 hg with rfl | hg
    · exact ⟨by omega, by omega⟩
    · obtain ⟨h3, h4⟩ := hbounds g hg
      exact ⟨h3, by omega⟩

end Session

namespace Scan

open Session

variable {source : Bytes} {setup : Setup} {nested : Nested} {s₀ s t : Session} {c : Collected}

/-- The fault cannot be passed over, or it will be the one that is shown of what was met since
`s`. -/
def Meets (source : Bytes) (s : Session) (f : Fault) (t : Session) : Prop :=
  f.isFatal = true ∨ s.Accounted source [f] { t with faults := f :: t.faults }

/-- What an element shows of the faults that were met in it. -/
def Outcome.faults : Outcome → List Fault
  | .value v => Finder.faults.value v
  | _ => []

/-! ## What an element comes to -/

/-- A fault of the scan's own, about what it has consumed. -/
theorem fail_meets {α : Type} {kind : FaultKind} {token : TokenKind} {span : Span}
    {Q : α → Session → Prop} (h : s.Accounted source [] t) (h1 : s.cursor.start ≤ span.start)
    (h2 : span.stop ≤ t.cursor.start + 1) : Ends (fail kind token span) t Q (Meets source s) :=
  .inr (h.record rfl (Nat.le_refl _) h1 h2)

/-- A path shows what its segments show, unless it is refused. -/
theorem joinPath_accounted {head : TokenKind} {segments : Block} (ht : t.Tracked source)
    (h : s.Accounted source (faults.items segments.items) t) :
    Ends (joinPath head s.cursor.start segments) t (fun v => s.Accounted source (faults.value v))
      (Meets source s) := by
  have hstop := ht.stop
  have hend : t.past.cursor.start = t.cursor.stop + 1 := by
    show t.cursor.start + (t.cursor.stop + 1 - t.cursor.start) = t.cursor.stop + 1
    omega
  apply joinPath_ends
  · intro kind
    rw [value_block]
    have hsame := items_plainWord Finder.faults (fun _ _ => rfl) segments.items
    rwa [← hsame] at h
  · rwa [value_block]
  · intro _
    rw [value_block]
    exact h.forward (Nat.le_add_right _ _) rfl
  · intro hcolon
    refine .inr (h.refused rfl rfl ?_ rfl hend.symm ?_)
    · rw [behind, ht.byte, Nat.add_sub_cancel' hstop] at hcolon
      exact hcolon
    · show t.cursor.start < t.past.cursor.start
      omega

/-- A construction that gives its items back shows what they show. -/
theorem construct_accounted (hecho : setup.construct = .echo) {start : Nat} {spec : Block}
    (h : s.Accounted source (faults.items spec.items) t) :
    Ends (construct setup start spec) t (fun v => s.Accounted source (faults.value v))
      (Meets source s) := by
  have hmake : (setup.construct.make spec.items t.symbols).1 =
      some (.block .block ⟨spec.items, false⟩) := by rw [hecho]; rfl
  apply construct_ends
  · intro v hv
    rw [hmake] at hv
    cases hv
    rw [value_block]
    exact h.forward (Nat.le_refl _) rfl
  · intro hnone
    rw [hmake] at hnone
    cases hnone

/-- What has been collected, in the order of the source, shows these faults. -/
def shown (c : Collected) : List Fault := faults.items c.items.reverse

theorem shown_push (c : Collected) (v : Value) (span : Span) :
    shown (c.push v span) = shown c ++ faults.value v := by
  rw [shown, Collected.push, List.reverse_cons, items_append, items_cons, items, List.append_nil]
  rfl

/-- What is known of a level that was opened in `s`: it shows what was met since. -/
def Accounts (source : Bytes) (s : Session) (c : Collected) (t : Session) : Prop :=
  t.Tracked source ∧ s.Accounted source (shown c) t

/-- What an element shows is added to what the level did. -/
theorem fits_accounted {E : Fault → Session → Prop} (hc : s₀.Accounted source (shown c) s)
    (ht : t.Tracked source) {out : Outcome} (h : s.Accounted source (Outcome.faults out) t) :
    Fits setup (Accounts source s₀) E c (.ok out) t := by
  have happend := hc.append h
  cases out with
  | value v | slot =>
    intro span
    refine ⟨ht, ?_⟩
    rw [shown_push]
    exact happend
  | lineBreak | comment =>
    have hkept : s₀.Accounted source (shown c ++ []) t := happend
    rw [List.append_nil] at hkept
    exact ⟨ht, hkept⟩

/-- What the levels inside are taken to show. -/
def NestedAccounted (source : Bytes) (nested : Nested) : Prop :=
  ∀ l start s, s.Tracked source →
    Ends (nested l start) s
      (fun body t => t.Tracked source ∧ s.Accounted source (faults.items body.items) t)
      fun f t => Fatal f t ∧ f.Met source t

section

variable (hn : NestedAccounted source nested)

include hn

/-- A level inside shows what was met since `s`. -/
theorem nested_accounted (l : Level) (start : Nat) (ht : t.Tracked source)
    (h : s.Accounted source [] t) :
    Ends (nested l start) t
      (fun body u => u.Tracked source ∧ s.Accounted source (faults.items body.items) u)
      (Meets source s) :=
  (hn l start t ht).imp (fun _ _ hu => ⟨hu.1, h.append hu.2⟩) fun _ _ hf => .inl hf.1

/-- **What an element shows is what was met in it.** -/
theorem perform_accounted (hecho : setup.construct = .echo) (hs : s.Tracked source) {level : Level}
    (hitem : (s.reading level).element.isItem = true) :
    Ends (perform setup nested (s.reading level) s.looked.cursor.start) s.looked
      (fun out => s.looked.Accounted source (Outcome.faults out)) (Meets source s.looked) := by
  have hread := s.reading_reads level
  have hend := Element.ne_endOfInput_of_isItem hitem
  apply perform_ends
  · intro kind he
    have hpending := hs.looked_pending (.inr (.inr ⟨kind, he⟩))
    apply (nested_accounted hn _ _ hpending (accounted_nil (Nat.le_refl _) rfl)).bind
    rintro segments t ⟨ht, h⟩
    exact joinPath_accounted ht h
  · intro hhead
    have hnone {t : Session}
        (hstart : s.looked.cursor.start + (s.reading level).taken = t.cursor.start)
        (hfaults : t.faults = s.looked.faults) : s.looked.Accounted source [] t :=
      accounted_nil (hstart ▸ Nat.le_add_right _ _) hfaults
    have htaken (hb : (s.reading level).element ≠ .lineBreak) := hs.taken hend hhead hb
    unfold carryOut
    cases he : (s.reading level).element with
    | lineBreak =>
      refine Ends.after rfl ?_
      exact .pure (hnone rfl rfl)
    | slot | comment => exact .pure (hnone rfl rfl)
    | value v =>
      refine .pure ?_
      rw [Outcome.faults, faults_of_isScalar (hread.isScalar_of_value he)]
      exact hnone rfl rfl
    | word kind name | issue name =>
      refine Ends.after rfl ?_
      exact .pure (hnone rfl rfl)
    | opener b =>
      have htaken := htaken (by rw [he]; exact Element.noConfusion)
      apply Ends.ite
      · intro _
        exact fail_meets (hnone rfl rfl) (Nat.le_refl _) (Nat.le_succ _)
      · intro _
        apply (nested_accounted hn _ _ htaken (hnone rfl rfl)).bind
        rintro body t ⟨-, h⟩
        refine .pure ?_
        rwa [Outcome.faults, value_block]
    | construct =>
      have htaken := htaken (by rw [he]; exact Element.noConfusion)
      apply Ends.bind (Q := fun v => s.looked.Accounted source (faults.value v))
      · apply (nested_accounted hn _ _ htaken (hnone rfl rfl)).bind
        rintro spec t ⟨-, h⟩
        exact construct_accounted hecho h
      · intro v t ht
        exact .pure ht
    | invalid kind n =>
      have hextent : n ≤ (s.reading level).taken + 1 := Element.proper_of.extent kind n he
      exact fail_meets (hnone rfl rfl) (Nat.le_refl _) (Nat.add_le_add_left hextent _)
    | endOfInput | closer b =>
      rw [he] at hitem
      cases hitem
    | pathHead kind => exact absurd he (hhead kind)

end

/-! ## One round of a level -/

section

variable (hr : setup.options.relaxed = true)

include hr

/-- A fault that is recorded is shown. -/
theorem record_accounted {f : Fault}
    (hf : f.isFatal = true ∨
      s.Accounted source (shown c ++ [f]) { t with faults := f :: t.faults }) :
    Ends (record setup f c) t (fun c' => s.Accounted source (shown c')) Fatal := by
  apply Ends.ite
  · intro hthrow
    rw [hr, Bool.not_true, Bool.false_or] at hthrow
    exact .throw hthrow
  · intro hpass
    rcases hf with hfatal | h
    · rw [hr, hfatal] at hpass
      exact absurd rfl hpass
    · show s.Accounted source (shown (c.push (.error f) f.span)) { t with faults := f :: t.faults }
      rw [shown_push]
      exact h

/-- A fault of the scan's own is recorded as soon as it arises. -/
theorem recorded_accounted {kind : FaultKind} {token : TokenKind} {span : Span} {site : Site}
    {goesOn : Bool} (hc : s.Accounted source (shown c) t) (h1 : s.cursor.start ≤ span.start)
    (h2 : span.stop ≤ t.cursor.start + 1) :
    Ends (faultAt kind token span site >>= fun f => record setup f c >>= fun c => pure (c, goesOn))
      t (fun r => s.Accounted source (shown r.1)) Fatal := by
  have hcounted : s.Accounted source (shown c) { t with faultCount := t.faultCount + 1 } :=
    hc.forward (Nat.le_refl _) rfl
  refine Ends.after rfl ?_
  apply (record_accounted hr (.inr (hcounted.record rfl (Nat.le_refl _) h1 h2))).bind
  intro c' u hu
  exact .pure hu

/-- A slash that no segment follows is a fault about the path up to it. -/
theorem separator_accounted {start : Nat} (hstart : s.cursor.start ≤ start) (ht : t.Tracked source)
    (hc : s.Accounted source (shown c) t) :
    Ends (separator setup start c) t (fun r => s.Accounted source (shown r.1)) Fatal := by
  have hpast : s.Accounted source (shown c) t.past := hc.forward (Nat.le_add_right _ _) rfl
  have hend : t.cursor.stop + 1 ≤ t.past.cursor.start + 1 := by
    have hstop := ht.stop
    show t.cursor.stop + 1 ≤ t.cursor.start + (t.cursor.stop + 1 - t.cursor.start) + 1
    omega
  apply separator_ends hc
  · intro _
    exact hpast
  · intro _
    exact recorded_accounted hr hpast hstart hend

theorem afterItem_accounted {level : Level} {start : Nat} (hstart : s.cursor.start ≤ start)
    (ht : t.Tracked source) (hc : s.Accounted source (shown c) t) :
    Ends (afterItem setup level start c) t (fun r => s.Accounted source (shown r.1)) Fatal := by
  cases level with
  | path => exact separator_accounted hr hstart ht hc
  | top | inside b => exact .pure hc

omit hr in
/-- A closer is one byte long, and the end of the input has none. -/
theorem token_bounds {level : Level}
    (he : (s.reading level).element = .endOfInput ∨ ∃ b, (s.reading level).element = .closer b) :
    s.token.stop ≤ s.looked.cursor.start + 1 := by
  have hstop : s.token.stop = s.looked.cursor.start + s.lexeme.length := rfl
  have hread := s.reading_reads level
  rw [hstop]
  apply Nat.add_le_add_left
  rcases he with he | ⟨b, he⟩
  · rw [lexeme, hread.of_endOfInput he]
    exact Nat.zero_le 1
  · rw [lexeme, Lexeme.ofFront_closing (hread.of_closer he)]
    exact Nat.le_refl 1

theorem closer_accounted {level : Level} {b : Bracket} {opened : Site}
    (he : (s.reading level).element = .closer b)
    (hc : s₀.Accounted source (shown c) s.looked) :
    Ends (closer setup level b s.token opened c) s.looked
      (fun r => s₀.Accounted source (shown r.1)) Fatal := by
  have hstop : s.token.stop = s.looked.cursor.start + s.lexeme.length := rfl
  have hend : s.looked.cursor.start + (s.token.stop - s.looked.cursor.start) = s.token.stop := by
    omega
  have hclosed : s₀.Accounted source (shown c)
      { s.looked with
        cursor := s.looked.cursor.advance (s.token.stop - s.looked.cursor.start) } :=
    hc.forward (Nat.le_add_right _ _) rfl
  apply closer_ends hc hclosed
  · intro site goesOn
    exact recorded_accounted hr hclosed hc.start (Nat.le_succ_of_le (Nat.le_of_eq hend.symm))
  · intro o
    exact recorded_accounted hr hc hc.start (token_bounds (.inr ⟨b, he⟩))

theorem turn_accounted (hf : ∀ l start, Forward (nested l start))
    (hn : NestedAccounted source nested) (hecho : setup.construct = .echo) (level : Level)
    (opened : Site) (hs : s.Tracked source) (hc : s₀.Accounted source (shown c) s) :
    Ends (turn setup nested level opened c) s (fun r => s₀.Accounted source (shown r.1)) Fatal := by
  have hlooked : s₀.Accounted source (shown c) s.looked := hc.forward (before_looked s).start rfl
  apply turn_ends
  · intro _
    exact hlooked
  · intro he b
    exact recorded_accounted hr hlooked hlooked.start (token_bounds (.inl he))
  · intro b he
    exact closer_accounted hr he hlooked
  · intro hitem
    have htracked : NestedTracked source nested := fun l start t ht =>
      (hn l start t ht).imp (fun _ _ h => h.1) fun _ _ h => h.2
    apply item_ends (P := Accounts source s₀) (fun _ _ h => h.2)
    · rintro c t ⟨ht, hc⟩
      exact afterItem_accounted hr hlooked.start ht hc
    · refine ((perform_tracked hf htracked hs hitem).and
        (perform_accounted hn hecho hs hitem)).imp ?_ ?_
      · rintro out t ⟨⟨ht, -⟩, h⟩
        exact fits_accounted hlooked ht h
      · rintro f t ⟨⟨hmet, -⟩, h⟩
        exact ((record_tracked ⟨hmet, Nat.le_refl _⟩).and
          (record_accounted hr (h.imp_right hlooked.append))).imp
            (fun _ _ h => ⟨h.1.1, h.2⟩) fun _ _ h => h.2

/-- **A level shows what was met since it was opened.** -/
theorem level_accounted (hecho : setup.construct = .echo) (fuel room : Nat) :
    NestedAccounted source fun l _ => level setup fuel room l := by
  have hyields {s t : Session} {body : Block} (h : Yields (Accounts source s) body t) :
      t.Tracked source ∧ s.Accounted source (faults.items body.items) t := by
    obtain ⟨c, rfl, hc⟩ := h
    exact hc
  have hopen {s : Session} (hs : s.Tracked source) : Accounts source s .empty s :=
    ⟨hs, accounted_nil (Nat.le_refl _) rfl⟩
  intro l _ s hs
  refine (level_collects (P := Accounts source)
    (E := fun _ f t => Fatal f t ∧ f.Met source t) ?_ ?_ fuel room l s (hopen hs)).imp
      (fun _ _ => hyields) fun _ _ => id
  · intro start s hs
    have hfatal : Ends (tooDeep start : Scan Block) s (fun _ _ => False) Fatal := by
      rw [Ends]
      rfl
    exact (hfatal.and (tooDeep_tracked start s hs.1)).imp (fun _ _ h => h.1.elim) fun _ _ => id
  · intro nested hf hn s level opened c t ht
    have hnested : NestedAccounted source nested := fun l start s hs =>
      (hn l start s (hopen hs)).imp (fun _ _ => hyields) fun _ _ => id
    have htracked : NestedTracked source nested := fun l start t ht =>
      (hnested l start t ht).imp (fun _ _ h => h.1) fun _ _ h => h.2
    exact ((turn_tracked hf htracked level opened c t ht.1).and
      (turn_accounted hr hf hnested hecho level opened ht.1 ht.2)).imp (fun _ _ => id)
        fun _ _ => And.symm

end

end Scan

/-! ## Whole scans -/

/-- **The errors among the values are the faults that were passed over.** Where a relaxed scan with
constructions that give their items back returns, the errors in its values, read from left to right,
are the recorded faults in their order, without some whose text lies in the text of a later one: that
one refuses a path for the colon behind it. So nothing is reordered, invented or repeated, and
nothing is missing but what such a path had in it. -/
theorem echoed_faults {source : Bytes} {symbols table : SymbolTable} {options : Options}
    {t : Transcoded} (hrelaxed : options.relaxed = true)
    (h : transcodeWith .echo source symbols options = (.ok t, table)) :
    Shows source t.faults (faults.items t.values.items) ∧
      (faults.items t.values.items).Sublist t.faults ∧
      ∀ f ∈ t.faults, f ∈ faults.items t.values.items ∨ ∃ g ∈ t.faults, g.Covers source f := by
  obtain ⟨s, hscan, ht, -⟩ := transcodeWith_eq_ok.1 h
  have hlevels : Scan.NestedAccounted source fun l _ =>
      Scan.level ⟨options, .echo⟩ (source.length + 1) options.maxDepth l :=
    Scan.level_accounted hrelaxed rfl _ _
  have hends := hlevels .top 0 _ (Session.tracked_start source symbols)
  obtain ⟨-, -, new, hnew, hshows, -⟩ := hends.ok hscan
  have hfaults : t.faults = new.reverse := by
    rw [ht, hnew]
    exact congrArg List.reverse (List.append_nil new)
  rw [hfaults]
  exact ⟨hshows, hshows.sublist, fun f => hshows.mem_or_covered⟩

/-- In `(1x :a/(b]:)` the paren that is not closed is in the get-path that is refused, and the pair
is not. -/
theorem echoed_faults_refused_path :
    ∃ source t table,
      source = [0x28, 0x31, 0x78, 0x20, 0x3A, 0x61, 0x2F, 0x28, 0x62, 0x5D, 0x3A, 0x29] ∧
      Options.standard.relaxedly.relaxed = true ∧
      transcodeWith .echo source .initial Options.standard.relaxedly = (.ok t, table) ∧
      t.faults.map (·.kind) = [.invalid .pair, .missing .paren, .invalid .path] ∧
      (faults.items t.values.items).map (·.kind) = [.invalid .pair, .invalid .path] ∧
      Shows source t.faults (faults.items t.values.items) := by
  have hkinds : ((transcodeWith .echo
      [0x28, 0x31, 0x78, 0x20, 0x3A, 0x61, 0x2F, 0x28, 0x62, 0x5D, 0x3A, 0x29] .initial
      Options.standard.relaxedly).1.toOption.map fun t =>
        (t.faults.map (·.kind), (faults.items t.values.items).map (·.kind))) =
      some ([.invalid .pair, .missing .paren, .invalid .path], [.invalid .pair, .invalid .path]) := by
    decide +kernel
  cases h : transcodeWith .echo
      [0x28, 0x31, 0x78, 0x20, 0x3A, 0x61, 0x2F, 0x28, 0x62, 0x5D, 0x3A, 0x29] .initial
      Options.standard.relaxedly with
  | mk result table =>
    rw [h] at hkinds
    cases result with
    | error failure => cases hkinds
    | ok t =>
      obtain ⟨hrecorded, hshown⟩ := Prod.mk.inj (Option.some.inj hkinds)
      exact ⟨_, t, table, rfl, rfl, h, hrecorded, hshown, (echoed_faults rfl h).1⟩

end RebolScan
