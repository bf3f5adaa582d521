import RebolScan.Proofs.Token.Extent
import RebolScan.Scan.Scanner

/-!
# Values that tile their source

What it means that nothing of a source is lost between values: they stand in it one after the
other, each over the bytes of its span, and **whatever lies between two of them is white space, line
breaks and comments** (`Gap`), or one slash between the segments of a path. `Tiles` and `Segments`
say so of items at one level, over a property `P` that each item has; `Value.Tiled` ties them
together over the tree of a value.
-/

set_option autoImplicit false

namespace RebolScan

open Ascii

/-! ## What may lie between values -/

/-- Text that says nothing: white space, line breaks, and comments up to the break that ends each. -/
inductive Skipped : Bytes → Prop
  | nil : Skipped []
  | space {b : UInt8} {rest : Bytes} (h : isSpace b = true) (hr : Skipped rest) : Skipped (b :: rest)
  | lineBreak {b : UInt8} {rest : Bytes} (h : isLineBreak b = true) (hr : Skipped rest) :
      Skipped (b :: rest)
  | comment {text : Bytes} {b : UInt8} {rest : Bytes} (ht : ∀ c ∈ text, isLineEnd c = false)
      (h : isLineBreak b = true) (hr : Skipped rest) : Skipped (semicolon :: text ++ b :: rest)

theorem Skipped.append {x y : Bytes} (hx : Skipped x) (hy : Skipped y) : Skipped (x ++ y) := by
  induction hx with
  | nil => exact hy
  | space h _ ih => exact .space h ih
  | lineBreak h _ ih => exact .lineBreak h ih
  | @comment text b rest ht h _ ih =>
    rw [List.append_assoc]
    exact .comment ht h ih

theorem skipped_spaces (text : Bytes) : Skipped (text.takeWhile isSpace) := by
  induction text with
  | nil => exact .nil
  | cons b rest ih =>
    by_cases h : isSpace b = true
    · rw [List.takeWhile_cons_of_pos h]
      exact .space h ih
    · rw [List.takeWhile_cons_of_neg h]
      exact .nil

/-- A line break, be it of one byte or two, starts with one and says nothing. -/
theorem take_lineBreak {text : Bytes} (h : isLineBreak (byteAt text 0) = true) :
    ∃ b rest, text.take (lineBreakLength text) = b :: rest ∧ isLineBreak b = true ∧
      Skipped rest := by
  cases text with
  | nil => exact absurd h (by decide)
  | cons b rest =>
    unfold lineBreakLength
    split
    · rename_i hcrlf
      cases rest with
      | nil => exact absurd hcrlf (by simp [lineFeed])
      | cons lf rest =>
        simp only [byteAt_cons_zero, byteAt_cons_succ, Bool.and_eq_true, beq_iff_eq] at hcrlf h
        refine ⟨b, [lf], rfl, h, .lineBreak ?_ .nil⟩
        rw [hcrlf.2]
        rfl
    · exact ⟨b, [], rfl, h, .nil⟩

theorem skipped_lineBreak {text : Bytes} (h : isLineBreak (byteAt text 0) = true) :
    Skipped (text.take (lineBreakLength text)) := by
  obtain ⟨b, rest, htake, hb, hrest⟩ := take_lineBreak h
  rw [htake]
  exact .lineBreak hb hrest

/-- A line is what stands in front of the first byte that ends it. -/
theorem take_lineLength (text : Bytes) :
    text.take (lineLength text) = text.takeWhile fun b => !isLineEnd b :=
  (List.prefix_iff_eq_take.1 (List.takeWhile_prefix _)).symm

theorem not_lineEnd_of_mem {text : Bytes} {c : UInt8}
    (h : c ∈ text.takeWhile fun b => !isLineEnd b) : isLineEnd c = false := by
  simpa using List.all_eq_true.1 List.all_takeWhile c h

theorem skipped_commentLine {text : Bytes} (h : byteAt text 0 = semicolon)
    (hb : isLineBreak (byteAt text (lineLength text)) = true) :
    Skipped (text.take (lineLength text + lineBreakLength (text.drop (lineLength text)))) := by
  rw [← Nat.add_zero (lineLength text), ← byteAt_drop] at hb
  obtain ⟨b, rest, htake, hbreak, hrest⟩ := take_lineBreak hb
  rw [List.take_add, htake, take_lineLength]
  cases text with
  | nil => exact absurd h (by decide)
  | cons first text =>
    obtain rfl : first = semicolon := h
    rw [List.takeWhile_cons_of_pos (by decide)]
    exact .comment (fun _ => not_lineEnd_of_mem) hbreak hrest

/-- The source says nothing from `a` to `b`. -/
structure Gap (source : Bytes) (a b : Nat) : Prop where
  le : a ≤ b
  length : b ≤ source.length
  skipped : Skipped (between source a b)

/-- From `a` to `b` the source says nothing but for a comment that `b` cuts off. -/
def OpenGap (source : Bytes) (a b : Nat) : Prop :=
  ∃ m, Gap source a m ∧ byteAt source m = semicolon ∧ m < b ∧ b ≤ source.length ∧
    ∀ c ∈ between source m b, isLineEnd c = false

theorem Gap.refl {source : Bytes} {a : Nat} (h : a ≤ source.length) : Gap source a a :=
  ⟨Nat.le_refl _, h, by rw [between, Nat.sub_self, List.take_zero]; exact .nil⟩

theorem Gap.trans {source : Bytes} {a b c : Nat} (h₁ : Gap source a b) (h₂ : Gap source b c) :
    Gap source a c := by
  refine ⟨Nat.le_trans h₁.le h₂.le, h₂.length, ?_⟩
  rw [between_append h₁.le h₂.le]
  exact h₁.skipped.append h₂.skipped

/-! ## Items -/

section

variable (source : Bytes) (P : Item → Prop)

/-- Items follow one another from a place to another, where the last one ends. -/
inductive Tiles : List Item → Nat → Nat → Prop
  | nil (a : Nat) : Tiles [] a a
  | snoc {a : Nat} {items : List Item} {e : Nat} {item : Item} (h : Tiles items a e)
      (hgap : Gap source e item.span.start) (hpos : item.span.start < item.span.stop)
      (hlen : item.span.stop ≤ source.length) (hp : P item) :
      Tiles (items ++ [item]) a item.span.stop

/-- Segments of a path, each with the slash that divides it from the next, up to where that starts.
An empty first segment is that slash itself. -/
inductive Segments : List Item → Nat → Nat → Prop
  | nil (a : Nat) : Segments [] a a
  | slot {a : Nat} {item : Item} (hv : item.value = .none) (hspan : item.span = ⟨a, a + 1⟩)
      (hslash : byteAt source a = slash) : Segments [item] a (a + 1)
  | snoc {a : Nat} {items : List Item} {e : Nat} {item : Item} (h : Segments items a e)
      (hstart : item.span.start = e) (hpos : e < item.span.stop) (hp : P item)
      (hslash : byteAt source item.span.stop = slash) :
      Segments (items ++ [item]) a (item.span.stop + 1)

/-- All segments of a path, of which no slash follows the last. -/
inductive Joined : List Item → Nat → Nat → Prop
  | mk {a e : Nat} {items : List Item} {last : Item} (h : Segments source P items a e)
      (hstart : last.span.start = e) (hpos : e < last.span.stop)
      (hlen : last.span.stop ≤ source.length) (hp : P last) :
      Joined (items ++ [last]) a last.span.stop

end

/-- The bytes of `span` spell `v`, and so do those of every item in it for that. -/
inductive Value.Tiled (source : Bytes) : Span → Value → Prop
  | scalar {span : Span} {v : Value} (h : v.isScalar = true) : Value.Tiled source span v
  | bracketed {start stop e : Nat} (b : Bracket) {items : List Item} {tailLine : Bool}
      (hopen : byteAt source start = b.openByte)
      (h : Tiles source (fun item => Value.Tiled source item.span item.value) items (start + 1) e)
      (hgap : Gap source e stop) (hclose : byteAt source stop = b.closeByte) :
      Value.Tiled source ⟨start, stop + 1⟩ (.block b.blockKind ⟨items, tailLine⟩)
  | path {start stop : Nat} (kind : BlockKind) {items : List Item} {tailLine : Bool}
      (hkind : kind.isPath = true) (hset : kind ≠ .setPath)
      (h : Joined source (fun item => Value.Tiled source item.span item.value) items start stop) :
      Value.Tiled source ⟨start, stop⟩ (.block kind ⟨items, tailLine⟩)
  | setPath {start stop : Nat} {items : List Item} {tailLine : Bool}
      (h : Joined source (fun item => Value.Tiled source item.span item.value) items start stop)
      (hcolon : byteAt source stop = colon) :
      Value.Tiled source ⟨start, stop + 1⟩ (.block .setPath ⟨items, tailLine⟩)
  | object {span : Span} {fields : List (Symbol × Item)}
      (hspan : ∀ name item, (name, item) ∈ fields → span.start ≤ item.span.start ∧
        item.span.start < item.span.stop ∧ item.span.stop ≤ span.stop)
      (h : ∀ name item, (name, item) ∈ fields → Value.Tiled source item.span item.value) :
      Value.Tiled source span (.object fields)

/-- The bytes of an item's span spell its value. -/
def Item.Tiled (source : Bytes) (item : Item) : Prop := item.value.Tiled source item.span

/-! ## What holds of tiled items -/

section

variable {source : Bytes} {P : Item → Prop} {items : List Item} {a e : Nat}

theorem Tiles.le (h : Tiles source P items a e) : a ≤ e := by
  induction h with
  | nil a => exact Nat.le_refl a
  | snoc h hgap hpos hlen hp ih =>
    have := hgap.le
    omega

/-- Every item lies between the two ends. -/
theorem Tiles.mem (h : Tiles source P items a e) {item : Item} (hitem : item ∈ items) :
    a ≤ item.span.start ∧ item.span.start < item.span.stop ∧ item.span.stop ≤ e ∧ P item := by
  induction h with
  | nil a => cases hitem
  | @snoc a items e last h hgap hpos hlen hp ih =>
    have hle := h.le
    have hgap := hgap.le
    rcases List.mem_append.1 hitem with hitem | hitem
    · obtain ⟨h1, h2, h3, h4⟩ := ih hitem
      exact ⟨h1, h2, by omega, h4⟩
    · obtain rfl := List.mem_singleton.1 hitem
      exact ⟨by omega, hpos, Nat.le_refl _, hp⟩

theorem Segments.le (h : Segments source P items a e) : a ≤ e := by
  induction h with
  | nil a => exact Nat.le_refl a
  | slot => exact Nat.le_succ _
  | snoc h hstart hpos hp hslash ih => omega

/-- What has no segments ends where it starts. -/
theorem Segments.of_nil (h : Segments source P [] a e) : a = e := by
  generalize hitems : ([] : List Item) = items at h
  cases h with
  | nil => rfl
  | slot => cases hitems
  | snoc => exact absurd hitems.symm (by simp)

theorem Joined.lt (h : Joined source P items a e) : a < e := by
  cases h with
  | mk h hstart hpos hlen hp =>
    have := h.le
    omega

section

variable (hnone : ∀ item : Item, item.value = .none → P item)

include hnone

/-- Every segment lies between the two ends, an empty one too. -/
theorem Segments.mem (h : Segments source P items a e) {item : Item} (hitem : item ∈ items) :
    a ≤ item.span.start ∧ item.span.start < item.span.stop ∧ item.span.stop ≤ e ∧ P item := by
  induction h with
  | nil a => cases hitem
  | slot hv hspan hslash =>
    obtain rfl := List.mem_singleton.1 hitem
    rw [hspan]
    exact ⟨Nat.le_refl _, Nat.lt_succ_self _, Nat.le_refl _, hnone _ hv⟩
  | @snoc a items e last h hstart hpos hp hslash ih =>
    have hle := h.le
    rcases List.mem_append.1 hitem with hitem | hitem
    · obtain ⟨h1, h2, h3, h4⟩ := ih hitem
      exact ⟨h1, h2, by omega, h4⟩
    · obtain rfl := List.mem_singleton.1 hitem
      exact ⟨by omega, by omega, Nat.le_succ _, hp⟩

theorem Joined.mem (h : Joined source P items a e) {item : Item} (hitem : item ∈ items) :
    a ≤ item.span.start ∧ item.span.start < item.span.stop ∧ item.span.stop ≤ e ∧ P item := by
  cases h with
  | @mk a e items last h hstart hpos hlen hp =>
    have hle := h.le
    rcases List.mem_append.1 hitem with hitem | hitem
    · obtain ⟨h1, h2, h3, h4⟩ := h.mem hnone hitem
      exact ⟨h1, h2, by omega, h4⟩
    · obtain rfl := List.mem_singleton.1 hitem
      exact ⟨by omega, by omega, Nat.le_refl _, hp⟩

end

theorem Item.tiled_of_none (item : Item) (h : item.value = .none) : item.Tiled source :=
  .scalar (by rw [h]; rfl)

/-- The items of a sequence lie in its span, brackets or none. -/
theorem Value.Tiled.mem {span : Span} {kind : BlockKind} {body : Block} {item : Item}
    (h : Value.Tiled source span (.block kind body)) (hitem : item ∈ body.items) :
    span.start ≤ item.span.start ∧ item.span.start < item.span.stop ∧
      item.span.stop ≤ span.stop ∧ item.Tiled source := by
  generalize hv : Value.block kind body = v at h
  cases h with
  | scalar h =>
    subst hv
    cases h
  | bracketed b hopen htiles hgap hclose =>
    cases hv
    obtain ⟨h1, h2, h3, h4⟩ := htiles.mem hitem
    have := hgap.le
    exact ⟨Nat.le_of_succ_le h1, h2, by dsimp only; omega, h4⟩
  | path kind' hkind hset hjoined =>
    cases hv
    exact hjoined.mem (P := Item.Tiled source) Item.tiled_of_none hitem
  | setPath hjoined hcolon =>
    cases hv
    obtain ⟨h1, h2, h3, h4⟩ := hjoined.mem (P := Item.Tiled source) Item.tiled_of_none hitem
    exact ⟨h1, h2, Nat.le_succ_of_le h3, h4⟩
  | object => cases hv

variable (hplain : ∀ item, P item → P { item with value := Scan.plainWord item.value })

include hplain

/-- Which form of word the first segment is makes no difference. -/
theorem Segments.plainWord (h : Segments source P items a e) :
    Segments source P (Scan.mapFirst Scan.plainWord items) a e := by
  induction h with
  | nil a => exact .nil a
  | slot hv hspan hslash => exact .slot (by rw [hv]; rfl) hspan hslash
  | @snoc a items e item h hstart hpos hp hslash ih =>
    cases items with
    | nil =>
      show Segments source P ([] ++ [{ item with value := Scan.plainWord item.value }]) a _
      exact .snoc h hstart hpos (hplain _ hp) hslash
    | cons first items => exact .snoc ih hstart hpos hp hslash

theorem Joined.plainWord (h : Joined source P items a e) :
    Joined source P (Scan.mapFirst Scan.plainWord items) a e := by
  cases h with
  | @mk _ _ items last h hstart hpos hlen hp =>
    cases items with
    | nil =>
      show Joined source P ([] ++ [{ last with value := Scan.plainWord last.value }]) a _
      exact .mk h hstart hpos hlen (hplain _ hp)
    | cons first items => exact .mk (h.plainWord hplain) hstart hpos hlen hp

end

end RebolScan
