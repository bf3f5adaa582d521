import RebolScan.Proofs.Text.LineBreaks
import RebolScan.Scan.Scanner

/-!
# Line breaks between values

What the flags of values say of the source: an item is flagged if and only if a line breaks between
the end of the item in front of it and its own start, and the tail of a sequence if one does between
its last item and its closing bracket (`Value.Flagged`). The segments of a path are never flagged.

The first item of a sequence has nothing in front of it but the opening bracket, and at the top the
place where the text starts, so `Flagged` names the place from which it looks.
-/

set_option autoImplicit false

namespace RebolScan

section

variable (source : Bytes) (P : Item → Prop)

/-- Items that stand from one place to another, where the last one ends, each flagged as a line breaks
in front of it. -/
inductive Flagged : List Item → Nat → Nat → Prop
  | nil (a : Nat) : Flagged [] a a
  | snoc {a : Nat} {items : List Item} {e : Nat} {item : Item} (h : Flagged items a e)
      (hline : item.newLine = true ↔ ¬Unbroken source e item.span.start) (hp : P item) :
      Flagged (items ++ [item]) a item.span.stop

end

/-- The flags in a value that was read from `span`, at any depth. -/
inductive Value.Flagged (source : Bytes) : Span → Value → Prop
  | scalar {span : Span} {v : Value} (h : v.isScalar = true) : Value.Flagged source span v
  | bracketed {start stop e : Nat} (b : Bracket) {items : List Item} {tailLine : Bool}
      (h : RebolScan.Flagged source (fun item => Value.Flagged source item.span item.value) items
        (start + 1) e)
      (htail : tailLine = true ↔ ¬Unbroken source e stop) :
      Value.Flagged source ⟨start, stop + 1⟩ (.block b.blockKind ⟨items, tailLine⟩)
  | path {span : Span} {kind : BlockKind} {body : Block} (hkind : kind.isPath = true)
      (hline : ∀ item ∈ body.items, item.newLine = false)
      (h : ∀ item ∈ body.items, Value.Flagged source item.span item.value) :
      Value.Flagged source span (.block kind body)
  | object {span : Span} {fields : List (Symbol × Item)}
      (h : ∀ name item, (name, item) ∈ fields → Value.Flagged source item.span item.value) :
      Value.Flagged source span (.object fields)

/-- The flags in the value of an item are those of its span. -/
def Item.Flagged (source : Bytes) (item : Item) : Prop := item.value.Flagged source item.span

section

variable {source : Bytes} {P : Item → Prop} {items : List Item} {a e : Nat}

theorem Flagged.mem (h : Flagged source P items a e) : ∀ item ∈ items, P item := by
  induction h with
  | nil a => exact fun item hitem => absurd hitem List.not_mem_nil
  | snoc h hline hp ih =>
    intro item hitem
    rcases List.mem_append.1 hitem with hitem | hitem
    · exact ih item hitem
    · obtain rfl := List.mem_singleton.1 hitem
      exact hp

/-- What is said of a sequence is said of the items in it. -/
theorem Value.Flagged.mem {span : Span} {kind : BlockKind} {body : Block}
    (h : Value.Flagged source span (.block kind body)) :
    ∀ item : Item, item ∈ body.items → item.Flagged source := by
  generalize hv : Value.block kind body = v at h
  cases h with
  | scalar h =>
    subst hv
    cases h
  | bracketed b h htail =>
    cases hv
    exact h.mem
  | path hkind hline h =>
    cases hv
    exact h
  | object => cases hv

/-- Which form of word an item is makes no difference. -/
theorem Item.Flagged.plainWord {item : Item} (h : item.Flagged source) :
    Item.Flagged source { item with value := Scan.plainWord item.value } := by
  obtain ⟨v, line, span⟩ := item
  cases v with
  | word kind name => exact .scalar rfl
  | _ => exact h

/-- Nor does it in a sequence, of which the first item may become a plain word. -/
theorem forall_mapFirst {f : Value → Value} (h : ∀ item ∈ items, P item)
    (hf : ∀ item, P item → P { item with value := f item.value }) :
    ∀ item ∈ Scan.mapFirst f items, P item := by
  cases items with
  | nil => exact h
  | cons first rest =>
    rw [List.forall_mem_cons] at h
    exact List.forall_mem_cons.2 ⟨hf first h.1, h.2⟩

end

end RebolScan
