import RebolScan.Proofs.Value.Moved
import RebolScan.Proofs.Value.Spellable
import RebolScan.Proofs.Value.Tiled

/-!
# Gaps between siblings

Two items that follow one another, at the top or between brackets, leave a gap in the source: where
the first ends and where the second starts (`Adjacent`). `GapAmong` finds such a gap at any depth
below some items, and **if these are tiled the source says nothing there** (`Tiles.gapAmong`).

The other way round, the gap is not below items of which none ends where it starts and none holds it
(`Misses`), nor in what is made of them.
-/

set_option autoImplicit false

namespace RebolScan

open Ascii

/-- One item ends at `a`, and the next starts at `e`. -/
def Adjacent (a e : Nat) (items : List Item) : Prop :=
  ∃ p q, [p, q] <:+: items ∧ p.span.stop = a ∧ q.span.start = e

/-- Between brackets somewhere in the value, one item ends at `a` and the next starts at `e`. -/
inductive Value.GapAt (a e : Nat) : Value → Prop
  | siblings (b : Bracket) {body : Block} (h : Adjacent a e body.items) :
      Value.GapAt a e (.block b.blockKind body)
  | item (kind : BlockKind) {body : Block} {item : Item} (hitem : item ∈ body.items)
      (h : Value.GapAt a e item.value) : Value.GapAt a e (.block kind body)
  | field {fields : List (Symbol × Item)} {name : Symbol} {item : Item}
      (hfield : (name, item) ∈ fields) (h : Value.GapAt a e item.value) :
      Value.GapAt a e (.object fields)

/-- The same of items at the top, or of those between brackets. -/
def GapAmong (a e : Nat) (items : List Item) : Prop :=
  Adjacent a e items ∨ ∃ item ∈ items, item.value.GapAt a e

variable {source : Bytes} {P : Item → Prop} {items : List Item} {a e : Nat}

/-! ## What a gap says -/

/-- Where neighbours part, the source says nothing. -/
theorem Tiles.adjacent {x y : Nat} (h : Tiles source P items x y) (hg : Adjacent a e items) :
    x < a ∧ e < y ∧ Gap source a e := by
  obtain ⟨p, q, hpq, rfl, rfl⟩ := hg
  induction h with
  | nil x =>
    have := hpq.length_le
    simp at this
  | @snoc x items y last h hgap hpos hlen hp ih =>
    have hle := hgap.le
    rcases List.infix_concat_iff.1 hpq with hsuffix | hinfix
    · -- The last two: the one before is where the rest of the items ends.
      obtain ⟨init, hinit⟩ := hsuffix
      have hsplit : (init ++ [p]) ++ [q] = items ++ [last] := by
        rw [List.append_assoc]
        exact hinit
      obtain ⟨rfl, hlast⟩ := List.append_inj' hsplit rfl
      obtain rfl := (List.cons.inj hlast).1
      generalize hitems : init ++ [p] = items at h
      cases h with
      | nil => exact absurd hitems (by simp)
      | snoc h hgap' hpos' hlen' hp' =>
        obtain ⟨-, hlast⟩ := List.append_inj' hitems rfl
        obtain rfl := (List.cons.inj hlast).1
        have := h.le
        have := hgap'.le
        exact ⟨by omega, hpos, hgap⟩
    · obtain ⟨h1, h2, h3⟩ := ih hinfix
      exact ⟨h1, by omega, h3⟩

theorem Value.Tiled.gapAt {v : Value} {span : Span} (h : v.Tiled source span) (hg : v.GapAt a e) :
    span.start < a ∧ e < span.stop ∧ Gap source a e := by
  induction hg generalizing span with
  | @siblings b body hg =>
    generalize hv : Value.block b.blockKind body = v at h
    cases h with
    | scalar h =>
      subst hv
      cases h
    | bracketed b' hopen htiles hgap hclose =>
      obtain ⟨-, rfl⟩ := Value.block.inj hv
      obtain ⟨h1, h2, h3⟩ := htiles.adjacent hg
      have := hgap.le
      exact ⟨Nat.lt_of_succ_lt h1, by dsimp only; omega, h3⟩
    | path kind hkind =>
      cases hv
      cases b <;> cases hkind
    | setPath => cases b <;> cases hv
    | object => cases hv
  | item kind hitem _ ih =>
    obtain ⟨h1, -, h3, h4⟩ := h.mem hitem
    obtain ⟨h5, h6, h7⟩ := ih h4
    exact ⟨by omega, by omega, h7⟩
  | @field fields name item hfield _ ih =>
    generalize hv : Value.object fields = v at h
    cases h with
    | scalar h =>
      subst hv
      cases h
    | object hspan hfields =>
      cases hv
      obtain ⟨h1, -, h3⟩ := hspan name item hfield
      obtain ⟨h5, h6, h7⟩ := ih (hfields name item hfield)
      exact ⟨by omega, by omega, h7⟩
    | _ => cases hv

/-- **In a gap between siblings the source says nothing**, however deep they are. -/
theorem Tiles.gapAmong {x y : Nat} (h : Tiles source (Item.Tiled source) items x y)
    (hg : GapAmong a e items) : x < a ∧ e < y ∧ Gap source a e := by
  rcases hg with hg | ⟨item, hitem, hg⟩
  · exact h.adjacent hg
  · obtain ⟨h1, -, h3, h4⟩ := h.mem hitem
    obtain ⟨h5, h6, h7⟩ := Value.Tiled.gapAt h4 hg
    exact ⟨by omega, by omega, h7⟩

/-! ## Where there is no gap -/

/-- No item ends at `a`, and none holds the gap from `a` to `e`. -/
def Misses (a e : Nat) (items : List Item) : Prop :=
  ∀ item ∈ items, item.span.stop ≠ a ∧ ¬item.value.GapAt a e

theorem Value.not_gapAt_of_isScalar {v : Value} (h : v.isScalar = true) : ¬v.GapAt a e := by
  intro hg
  cases hg <;> cases h

theorem Misses.not_gapAmong (h : Misses a e items) : ¬GapAmong a e items := by
  rintro (⟨p, q, hpq, hstop, -⟩ | ⟨item, hitem, hg⟩)
  · exact (h p (hpq.subset List.mem_cons_self)).1 hstop
  · exact (h item hitem).2 hg

theorem Misses.block {kind : BlockKind} {body : Block} (h : Misses a e body.items) :
    ¬(Value.block kind body).GapAt a e := by
  intro hg
  cases hg with
  | siblings b hg => exact h.not_gapAmong (.inl hg)
  | item _ hitem hg => exact (h _ hitem).2 hg

theorem not_gapAt_plainWord {v : Value} (h : ¬v.GapAt a e) : ¬(Scan.plainWord v).GapAt a e := by
  cases v with
  | word => exact Value.not_gapAt_of_isScalar rfl
  | _ => exact h

/-- Which form of word the first segment is makes no difference. -/
theorem Misses.mapFirst_plainWord (h : Misses a e items) :
    Misses a e (Scan.mapFirst Scan.plainWord items) := by
  cases items with
  | nil => exact h
  | cons first items =>
    intro item hitem
    rcases List.mem_cons.1 hitem with rfl | hitem
    · obtain ⟨h1, h2⟩ := h first List.mem_cons_self
      exact ⟨h1, not_gapAt_plainWord h2⟩
    · exact h item (List.mem_cons_of_mem _ hitem)

/-- The item stands in front of `a` or from `a` on, or lies across it and holds no gap there. -/
def Clears (a e : Nat) (item : Item) : Prop :=
  item.span.stop < a ∨ a ≤ item.span.start ∨ (a < item.span.stop ∧ ¬item.value.GapAt a e)

/-- Items that are tiled miss the gap if each of them clears it. -/
theorem misses_of_clears
    (htiled : ∀ item ∈ items, item.span.start < item.span.stop ∧ item.Tiled source)
    (h : ∀ item ∈ items, Clears a e item) : Misses a e items := by
  intro item hitem
  obtain ⟨hlt, hv⟩ := htiled item hitem
  rcases h item hitem with h | h | ⟨h, hg⟩
  · refine ⟨by omega, fun hg => ?_⟩
    obtain ⟨-, h2, h3⟩ := Value.Tiled.gapAt hv hg
    have := h3.le
    omega
  · refine ⟨by omega, fun hg => ?_⟩
    obtain ⟨h1, -, -⟩ := Value.Tiled.gapAt hv hg
    omega
  · exact ⟨by omega, hg⟩

/-! ## Values without their places -/

theorem replaces_unplaced : Replaces Value.unplaced Item.unplaced where
  value _ := rfl
  word? v := by
    cases v with
    | block kind body => rw [Value.unplaced_block]; rfl
    | object fields => rw [Value.unplaced_object]; rfl
    | _ => rfl
  block? v := by
    cases v with
    | block kind body => rw [Value.unplaced_block]; rfl
    | object fields => rw [Value.unplaced_object]; rfl
    | _ => rfl
  object := Value.unplaced_object
  scalar v h := by
    cases v with
    | block | object | error => cases h
    | _ => rfl

end RebolScan
