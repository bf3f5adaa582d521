import RebolScan.Value.Basic

/-!
# The form of paths

What makes a sequence of items a path: two items at least, a first one that is a plain word or, in a
path or set-path, may be left out, and behind it anything but a set-word, a block or another path.
`Value.Occurs` goes through a value to any depth, so that the form can be asked of every path in it
(`Value.PathsFormed`), and that paths be the only sequences there (`Value.Unbracketed`).
-/

set_option autoImplicit false

namespace RebolScan

namespace Value

/-- The value is another one or stands in it, at any depth. -/
inductive Occurs (v : Value) : Value → Prop
  | here : Occurs v v
  | item {kind : BlockKind} {body : Block} {item : Item} (hitem : item ∈ body.items)
      (h : Occurs v item.value) : Occurs v (.block kind body)
  | field {fields : List (Symbol × Item)} {name : Symbol} {item : Item}
      (hfield : (name, item) ∈ fields) (h : Occurs v item.value) : Occurs v (.object fields)

/-- What may be a segment of a path: no set-word, and of the sequences only a paren. -/
structure IsSegment (v : Value) : Prop where
  setWord : ∀ name, v ≠ .word .setWord name
  block : ∀ kind body, v = .block kind body → kind = .paren

/-- What may be the first segment of a path of `kind`. -/
inductive Heads : BlockKind → Value → Prop
  | word (kind : BlockKind) (name : Symbol) : Heads kind (.word .word name)
  | path : Heads .path .none
  | setPath : Heads .setPath .none

end Value

/-- The items are those of a well-formed path of `kind`. -/
structure PathForm (kind : BlockKind) (items : List Item) : Prop where
  two_le : 2 ≤ items.length
  head : ∀ first, items.head? = some first → first.value.Heads kind
  segments : ∀ item ∈ items, item.value.IsSegment

namespace Value

/-- Every path that the value is, or that stands in it, is well formed. -/
def PathsFormed (v : Value) : Prop :=
  ∀ kind body, Occurs (.block kind body) v → kind.isPath = true → PathForm kind body.items

variable {v : Value}

theorem pathsFormed_of_isScalar (h : v.isScalar = true) : v.PathsFormed := by
  intro kind body hoccurs
  cases hoccurs with
  | here | item | field => cases h

/-- A sequence has the form of its kind, and its items what is said of theirs. -/
theorem pathsFormed_block {kind : BlockKind} {body : Block}
    (h : kind.isPath = true → PathForm kind body.items)
    (hitems : ∀ item ∈ body.items, item.value.PathsFormed) : (block kind body).PathsFormed := by
  intro kind' body' hoccurs
  cases hoccurs with
  | here => exact h
  | item hitem hoccurs => exact hitems _ hitem kind' body' hoccurs

theorem pathsFormed_object {fields : List (Symbol × Item)}
    (h : ∀ name item, (name, item) ∈ fields → item.value.PathsFormed) :
    (object fields).PathsFormed := by
  intro kind body hoccurs
  cases hoccurs with
  | field hfield hoccurs => exact h _ _ hfield kind body hoccurs

/-- The items of a sequence have no other paths in them. -/
theorem PathsFormed.item {kind : BlockKind} {body : Block} (h : (block kind body).PathsFormed)
    {item : Item} (hitem : item ∈ body.items) : item.value.PathsFormed :=
  fun kind' body' hoccurs => h kind' body' (.item hitem hoccurs)

theorem isSegment_of_isScalar (h : v.isScalar = true) (hword : v.word? = Option.none) :
    v.IsSegment where
  setWord name hv := by
    subst hv
    cases hword
  block kind body hv := by
    subst hv
    cases h

/-! ## Values without brackets -/

/-- Neither a block nor a paren is in the value: every sequence that it is, or that stands in it, is a
path. -/
def Unbracketed (v : Value) : Prop :=
  ∀ kind body, Occurs (.block kind body) v → kind.isPath = true

theorem unbracketed_of_isScalar (h : v.isScalar = true) : v.Unbracketed := by
  intro kind body hoccurs
  cases hoccurs with
  | here | item | field => cases h

/-- No value stands in an error. -/
theorem unbracketed_error (f : Fault) : (error f).Unbracketed := fun _ _ hoccurs => nomatch hoccurs

theorem unbracketed_path {kind : BlockKind} {body : Block} (h : kind.isPath = true)
    (hitems : ∀ item ∈ body.items, item.value.Unbracketed) : (block kind body).Unbracketed := by
  intro kind' body' hoccurs
  cases hoccurs with
  | here => exact h
  | item hitem hoccurs => exact hitems _ hitem kind' body' hoccurs

end Value

end RebolScan
