import RebolScan.Proofs.Literal.Written
import RebolScan.Proofs.Symbol
import RebolScan.Proofs.Token.Written
import RebolScan.Scan.Construct

/-!
# Values that can be written and read back

`render` is for display, and not all that it shows is source text: text in quotes is escaped in
another way, and a word may have a name that no scanner reads. `Spellable` says which values are
**written as the source text they could have been read from**, and how deep they nest: every block,
paren and path and every `#[...]` is a level, and an object is two.

What is read back is the same value elsewhere, so it is compared without its places (`unplaced`).
-/

set_option autoImplicit false

namespace RebolScan

open Ascii

/-! ## Values without their places -/

mutual

/-- The value with nothing said of where its parts stand and of the line breaks between them. -/
def Value.unplaced : Value → Value
  | .block kind ⟨items, _⟩ => .block kind ⟨unplacedItems items, false⟩
  | .object fields => .object (unplacedFields fields)
  | v => v

def unplacedItems : List (Placed Value) → List (Placed Value)
  | [] => []
  | ⟨v, _, _⟩ :: items => ⟨v.unplaced, false, ⟨0, 0⟩⟩ :: unplacedItems items

def unplacedFields : List (Symbol × Placed Value) → List (Symbol × Placed Value)
  | [] => []
  | (name, ⟨v, _, _⟩) :: fields => (name, ⟨v.unplaced, false, ⟨0, 0⟩⟩) :: unplacedFields fields

end

def Item.unplaced (item : Item) : Item := ⟨item.value.unplaced, false, ⟨0, 0⟩⟩

theorem unplacedItems_eq_map (items : List Item) : unplacedItems items = items.map Item.unplaced := by
  induction items with
  | nil => rfl
  | cons item items ih => rw [unplacedItems, ih]; rfl

theorem unplacedFields_eq_map (fields : List (Symbol × Item)) :
    unplacedFields fields = fields.map fun (name, item) => (name, item.unplaced) := by
  induction fields with
  | nil => rfl
  | cons field fields ih =>
    obtain ⟨name, item⟩ := field
    rw [unplacedFields, ih]
    rfl

@[simp] theorem Value.unplaced_block (kind : BlockKind) (body : Block) :
    (Value.block kind body).unplaced = .block kind ⟨body.items.map Item.unplaced, false⟩ := by
  rw [Value.unplaced, unplacedItems_eq_map]

@[simp] theorem Value.unplaced_object (fields : List (Symbol × Item)) :
    (Value.object fields).unplaced = .object (fields.map fun (name, item) => (name, item.unplaced)) := by
  rw [Value.unplaced, unplacedFields_eq_map]

theorem Value.eq_word_of_unplaced {v : Value} {kind : WordKind} {s : Symbol}
    (h : v.unplaced = .word kind s) : v = .word kind s := by
  cases v with
  | block kind body => cases (Value.unplaced_block kind body).symm.trans h
  | object fields => cases (Value.unplaced_object fields).symm.trans h
  | _ => exact h

theorem Value.eq_block_of_unplaced {v : Value} {kind : BlockKind} {items : List Item}
    {tailLine : Bool} (h : v.unplaced = .block kind ⟨items, tailLine⟩) :
    ∃ body, v = .block kind body ∧ body.items.map Item.unplaced = items := by
  cases v with
  | block kind' body =>
    cases (Value.unplaced_block kind' body).symm.trans h
    exact ⟨body, rfl, rfl⟩
  | object fields => cases (Value.unplaced_object fields).symm.trans h
  | _ => cases h

/-! ## What can be written and read back -/

/-- The symbol is one of the table's, and its name can be a word's. -/
structure SymbolTable.Names (t : SymbolTable) (s : Symbol) : Prop where
  knows : t.Knows s
  isName : isName (Utf8.encode (t.lookup s)) = true

/-- What may follow the first segment of a path: words, integers without a sign, and parens. -/
def Value.isSegment : Value → Bool
  | .word .word _ => true
  | .integer n => 0 ≤ n
  | .block .paren _ => true
  | _ => false

/-- The values that are written as source text, with the names that `t` has for their symbols, and
nest at most so many levels deep. -/
inductive Value.Spellable (t : SymbolTable) : Nat → Value → Prop
  | none {d : Nat} : Spellable t (d + 1) .none
  | unset {d : Nat} : Spellable t (d + 1) .unset
  | logic {d : Nat} (b : Bool) : Spellable t (d + 1) (.logic b)
  | datatype {d : Nat} {s : Symbol} (hs : t.Knows s) {name : String}
      (hname : name ∈ Constructor.datatypes) (h : t.lookup s = name ++ "!") :
      Spellable t (d + 1) (.datatype s)
  | integer {d : Nat} {n : Int} (h : Literal.fitsInt64 n = true) : Spellable t d (.integer n)
  | tuple {d : Nat} {parts : List Nat} (h₁ : Literal.minTuple ≤ parts.length)
      (h₂ : parts.length ≤ Literal.maxTuple) (h : ∀ n ∈ parts, n < 256) :
      Spellable t d (.tuple parts)
  | time {d : Nat} {time : Time} (h : Literal.fitsInt64 time.nanos = true)
      (hmin : time.nanos ≠ -2 ^ 63) : Spellable t d (.time time)
  | binary {d : Nat} (bytes : Bytes) : Spellable t d (.binary bytes)
  | issue {d : Nat} {s : Symbol} (hs : t.Knows s)
      (h : Literal.isIssueText (Utf8.encode (t.lookup s)) = true) : Spellable t d (.issue s)
  | word {d : Nat} (kind : WordKind) {s : Symbol} (hs : t.Names s) : Spellable t d (.word kind s)
  | sequence {d : Nat} (b : Bracket) {body : Block}
      (h : ∀ item ∈ body.items, Spellable t d item.value) :
      Spellable t (d + 1) (.block b.blockKind body)
  | object {d : Nat} {fields : List (Symbol × Item)} (hnames : ∀ field ∈ fields, t.Names field.1)
      (hset : ∀ field ∈ fields, ∀ s, field.2.value ≠ .word .setWord s)
      (h : ∀ field ∈ fields, Spellable t d field.2.value) : Spellable t (d + 2) (.object fields)
  | path {d : Nat} {kind : BlockKind} (hk : kind.isPath = true) {first : Item} {more : List Item}
      {s : Symbol} (hfirst : first.value = .word .word s) (hs : t.Names s) (hmore : more ≠ [])
      (hsegment : ∀ item ∈ more, item.value.isSegment = true)
      (h : ∀ item ∈ more, Spellable t d item.value) (tailLine : Bool) :
      Spellable t (d + 1) (.block kind ⟨first :: more, tailLine⟩)
  /-- `/a/b`, with nothing in front of its first slash -/
  | slotPath {d : Nat} {kind : BlockKind} (hk : kind = .path ∨ kind = .setPath)
      {slot first : Item} {more : List Item} {s : Symbol} (hslot : slot.value = .none)
      (hfirst : first.value = .word .word s) (hs : t.Names s) (hmore : more ≠ [])
      (hsegment : ∀ item ∈ more, item.value.isSegment = true)
      (h : ∀ item ∈ more, Spellable t d item.value) (tailLine : Bool) :
      Spellable t (d + 1) (.block kind ⟨slot :: first :: more, tailLine⟩)

/-! ## What is written -/

/-- The bytes of a value as source text. -/
def Value.spell (t : SymbolTable) (v : Value) : Bytes := Utf8.encode (v.render t)

/-- Texts with one byte between them. -/
def joined (separator : UInt8) : List Bytes → Bytes
  | [] => []
  | [w] => w
  | w :: v :: ws => w ++ separator :: joined separator (v :: ws)

theorem joined_cons (separator : UInt8) (w : Bytes) {ws : List Bytes} (h : ws ≠ []) :
    joined separator (w :: ws) = w ++ separator :: joined separator ws := by
  cases ws with
  | nil => exact absurd rfl h
  | cons v ws => rfl

theorem encode_intercalate {separator : String} {b : UInt8} (hb : Utf8.encode separator = [b])
    (texts : List String) :
    Utf8.encode (separator.intercalate texts) = joined b (texts.map Utf8.encode) := by
  induction texts with
  | nil => rfl
  | cons text texts ih =>
    cases texts with
    | nil =>
      rw [String.intercalate_singleton]
      rfl
    | cons next texts =>
      rw [String.intercalate_cons_cons, Utf8.encode_append, Utf8.encode_append, hb, ih,
        List.append_assoc]
      rfl

theorem renderItems_eq_map (t : SymbolTable) (items : List Item) :
    renderItems t items = items.map fun item => item.value.render t := by
  induction items with
  | nil => rfl
  | cons item items ih =>
    show item.value.render t :: renderItems t items = _
    rw [ih]
    rfl

/-- The bytes of items, with one byte between them. -/
def spellItems (t : SymbolTable) (separator : UInt8) (items : List Item) : Bytes :=
  joined separator (items.map fun item => item.value.spell t)

theorem spellItems_cons (t : SymbolTable) (separator : UInt8) (item : Item) {items : List Item}
    (h : items ≠ []) : spellItems t separator (item :: items) =
      item.value.spell t ++ separator :: spellItems t separator items := by
  rw [spellItems, List.map_cons, joined_cons _ _ (by simpa using h)]
  rfl

theorem spellItems_append (t : SymbolTable) (separator : UInt8) (item : Item) (items : List Item)
    (tail : Bytes) :
    ∃ rest, spellItems t separator (item :: items) ++ tail = item.value.spell t ++ rest := by
  cases items with
  | nil => exact ⟨tail, rfl⟩
  | cons next items =>
    rw [spellItems_cons t separator item (List.cons_ne_nil _ _), List.append_assoc]
    exact ⟨_, rfl⟩

/-- The texts of items between brackets, or of the segments of a path. -/
theorem encode_items {separator : String} {b : UInt8} (hb : Utf8.encode separator = [b])
    (t : SymbolTable) (items : List Item) :
    Utf8.encode (separator.intercalate (renderItems t items)) = spellItems t b items := by
  rw [renderItems_eq_map, encode_intercalate hb, List.map_map]
  rfl

section

variable {t : SymbolTable}

theorem spell_block (kind : BlockKind) (body : Block) : (Value.block kind body).spell t =
    Utf8.encode (kind.wrap body.items (renderItems t body.items)) := rfl

/-- **A block or paren** is its items with spaces between them, in brackets. -/
theorem spell_sequence (b : Bracket) (body : Block) :
    (Value.block b.blockKind body).spell t =
      b.openByte :: (spellItems t space body.items ++ [b.closeByte]) := by
  have hitems := encode_items (show Utf8.encode " " = [space] from rfl) t body.items
  rw [spell_block]
  cases b <;>
  · show Utf8.encode (_ ++ " ".intercalate (renderItems t body.items) ++ _) = _
    rw [Utf8.encode_append, Utf8.encode_append, hitems]
    rfl

/-- What a path has in front of its first segment. -/
def BlockKind.front : BlockKind → Bytes
  | .getPath => [colon]
  | .litPath => [tick]
  | _ => []

/-- What a path has behind its last segment. -/
def BlockKind.behind : BlockKind → Bytes
  | .setPath => [colon]
  | _ => []

theorem wrap_of_first {kind : BlockKind} {first : Item} {more : List Item} (texts : List String)
    (hfirst : first.value ≠ .none) : kind.wrap (first :: more) texts =
      kind.marks.1 ++ kind.marks.2.1.intercalate texts ++ kind.marks.2.2 := by
  simp only [BlockKind.wrap]
  split
  · rename_i hitems
    cases hitems
    exact absurd rfl hfirst
  · rfl

theorem encode_marks {kind : BlockKind} (hk : kind.isPath = true) :
    Utf8.encode kind.marks.1 = kind.front ∧ Utf8.encode kind.marks.2.1 = [slash] ∧
      Utf8.encode kind.marks.2.2 = kind.behind := by
  cases kind with
  | block | paren => cases hk
  | _ => exact ⟨rfl, rfl, rfl⟩

/-- **A path** is its segments with slashes between them. -/
theorem spell_path {kind : BlockKind} (hk : kind.isPath = true) {first : Item} {more : List Item}
    (hfirst : first.value ≠ .none) (tailLine : Bool) :
    (Value.block kind ⟨first :: more, tailLine⟩).spell t = kind.front ++
      (spellItems t slash (first :: more) ++ kind.behind) := by
  obtain ⟨hfront, hslash, hbehind⟩ := encode_marks hk
  rw [spell_block, wrap_of_first _ hfirst, Utf8.encode_append, Utf8.encode_append,
    encode_items hslash, hfront, hbehind, List.append_assoc]

/-- The empty segment in front of a path is written as nothing. -/
theorem spell_slotPath {kind : BlockKind} (hk : kind = .path ∨ kind = .setPath) {slot : Item}
    {more : List Item} (hslot : slot.value = .none) (hmore : more ≠ []) (tailLine : Bool) :
    (Value.block kind ⟨slot :: more, tailLine⟩).spell t =
      slash :: (spellItems t slash more ++ kind.behind) := by
  have hitems := encode_items (show Utf8.encode "/" = [slash] from rfl) t more
  obtain ⟨v, newLine, span⟩ := slot
  cases hslot
  obtain ⟨first, more, rfl⟩ := List.exists_cons_of_ne_nil hmore
  have htexts : Utf8.encode ("/".intercalate ("" :: renderItems t (first :: more))) =
      slash :: spellItems t slash (first :: more) := by
    have hfirst : renderItems t (first :: more) = first.value.render t :: renderItems t more := rfl
    rw [← hitems, hfirst, String.intercalate_cons_cons, Utf8.encode_append, Utf8.encode_append]
    rfl
  rw [spell_block]
  rcases hk with rfl | rfl
  · show Utf8.encode ("" ++ "/".intercalate ("" :: renderItems t (first :: more)) ++ "") = _
    rw [Utf8.encode_append, Utf8.encode_append, htexts]
    rfl
  · show Utf8.encode ("" ++ "/".intercalate ("" :: renderItems t (first :: more)) ++ ":") = _
    rw [Utf8.encode_append, Utf8.encode_append, htexts]
    rfl

/-! ## Objects -/

/-- The items that spell the fields of an object: set-words and values in turn. -/
def fieldItems (fields : List (Symbol × Item)) : List Item :=
  fields.flatMap fun (name, item) => [⟨.word .setWord name, false, ⟨0, 0⟩⟩, item]

/-- The fields of an object are written as those items would be. -/
theorem intercalate_renderFields (fields : List (Symbol × Item)) :
    " ".intercalate (renderFields t fields) = " ".intercalate (renderItems t (fieldItems fields)) := by
  induction fields with
  | nil => rfl
  | cons field fields ih =>
    obtain ⟨name, v, newLine, span⟩ := field
    have hleft : renderFields t ((name, ⟨v, newLine, span⟩) :: fields) =
        (t.lookup name ++ ": " ++ v.render t) :: renderFields t fields := rfl
    have hright : renderItems t (fieldItems ((name, ⟨v, newLine, span⟩) :: fields)) =
        (t.lookup name ++ ":") :: v.render t :: renderItems t (fieldItems fields) := by
      rw [fieldItems, List.flatMap_cons]
      rfl
    have hsplit (texts : List String) :
        " ".intercalate ((t.lookup name ++ ": " ++ v.render t) :: texts) =
          t.lookup name ++ ":" ++ " " ++ " ".intercalate (v.render t :: texts) := by
      have hcolon : t.lookup name ++ ": " = t.lookup name ++ ":" ++ " " := by
        rw [String.append_assoc]
        rfl
      cases texts with
      | nil => rw [String.intercalate_singleton, String.intercalate_singleton, hcolon]
      | cons text texts =>
        rw [String.intercalate_cons_cons, String.intercalate_cons_cons, hcolon]
        simp only [String.append_assoc]
    have hrest : " ".intercalate (v.render t :: renderFields t fields) =
        " ".intercalate (v.render t :: renderItems t (fieldItems fields)) := by
      cases fields with
      | nil => rfl
      | cons next fields =>
        obtain ⟨a, w, newLine', span'⟩ := next
        rw [fieldItems, List.flatMap_cons]
        rw [fieldItems, List.flatMap_cons] at ih
        exact (String.intercalate_cons_cons.trans (congrArg (v.render t ++ " " ++ ·) ih)).trans
          String.intercalate_cons_cons.symm
    rw [hleft, hright, hsplit, String.intercalate_cons_cons, hrest]

/-- **An object** is a block of its fields, behind the word for it. -/
theorem spell_object (fields : List (Symbol × Item)) : (Value.object fields).spell t =
    pound :: bracketOpen :: (Utf8.encode "object!" ++ space ::
      ((Value.block .block ⟨fieldItems fields, false⟩).spell t ++ [bracketClose])) := by
  have hblock : (Value.block .block ⟨fieldItems fields, false⟩).spell t = bracketOpen ::
      (Utf8.encode (" ".intercalate (renderFields t fields)) ++ [bracketClose]) := by
    rw [intercalate_renderFields, encode_items (show Utf8.encode " " = [space] from rfl)]
    exact spell_sequence .block ⟨fieldItems fields, false⟩
  show Utf8.encode ("#[object! [" ++ " ".intercalate (renderFields t fields) ++ "]]") = _
  rw [hblock, Utf8.encode_append, Utf8.encode_append,
    show Utf8.encode "#[object! [" =
      pound :: bracketOpen :: (Utf8.encode "object!" ++ [space, bracketOpen]) from rfl,
      show Utf8.encode "]]" = [bracketClose] ++ [bracketClose] from rfl]
  simp only [List.append_assoc, List.cons_append, List.nil_append]

/-! ## Words and simple constructions -/

theorem spell_word (kind : WordKind) (s : Symbol) : (Value.word kind s).spell t =
    match kind with
    | .word => Utf8.encode (t.lookup s)
    | .setWord => Utf8.encode (t.lookup s) ++ [colon]
    | .getWord => colon :: Utf8.encode (t.lookup s)
    | .litWord => tick :: Utf8.encode (t.lookup s)
    | .refinement => slash :: Utf8.encode (t.lookup s) := by
  cases kind with
  | word => rfl
  | setWord => exact Utf8.encode_append _ _
  | getWord | litWord | refinement => exact Utf8.encode_append _ _

theorem spell_issue (s : Symbol) : (Value.issue s).spell t = pound :: Utf8.encode (t.lookup s) :=
  Utf8.encode_append _ _

/-- The bytes of a construction without an argument. -/
def constructionText (name : String) : Bytes :=
  pound :: bracketOpen :: (Utf8.encode name ++ [bracketClose])

theorem spell_datatype (s : Symbol) : (Value.datatype s).spell t = constructionText (t.lookup s) := by
  show Utf8.encode ("#[" ++ t.lookup s ++ "]") = _
  rw [Utf8.encode_append, Utf8.encode_append]
  rfl

theorem spell_none : Value.none.spell t = constructionText "none" := by
  show Utf8.encode "#[none]" = _
  rfl

theorem spell_unset : Value.unset.spell t = constructionText "unset" := by
  show Utf8.encode "#[unset]" = _
  rfl

theorem spell_logic (b : Bool) :
    (Value.logic b).spell t = constructionText (if b then "true" else "false") := by
  cases b with
  | false =>
    show Utf8.encode "#[false]" = _
    rfl
  | true =>
    show Utf8.encode "#[true]" = _
    rfl

/-! ## How a value starts -/

/-- A byte that a written value may start with. -/
def startsValue (b : UInt8) : Bool :=
  isLetter b || isDigit b ||
    [pound, minus, colon, tick, slash, bracketOpen, parenOpen].contains b

theorem startsValue_digits {w : Bytes} {n : Nat} (negative : Bool) (h : Literal.Digits w n)
    (rest : Bytes) : startsValue (byteAt (Literal.signBytes negative ++ (w ++ rest)) 0) = true := by
  cases negative with
  | true => rfl
  | false =>
    have hdigit := h.byteAt_zero rest
    show startsValue (byteAt (w ++ rest) 0) = true
    rw [startsValue, hdigit]
    simp

theorem startsValue_name {w : Bytes} (h : isName w = true) (rest : Bytes) :
    startsValue (byteAt (w ++ rest) 0) = true := by
  cases w with
  | nil => cases h
  | cons b w =>
    rw [isName, Bool.and_eq_true] at h
    show startsValue b = true
    rw [startsValue, h.1]
    rfl

/-- **A written value starts with no space** and no byte order mark. -/
theorem Value.Spellable.starts {d : Nat} {v : Value} (h : v.Spellable t d) (rest : Bytes) :
    startsValue (byteAt (v.spell t ++ rest) 0) = true := by
  cases h with
  | none =>
    rw [spell_none]
    rfl
  | unset =>
    rw [spell_unset]
    rfl
  | logic b =>
    rw [spell_logic]
    rfl
  | datatype hs hname h =>
    rw [spell_datatype]
    rfl
  | @integer _ n h =>
    have htext : (Value.integer n).spell t = _ := Literal.encode_toString_int n
    rw [htext, List.append_assoc]
    exact startsValue_digits _ (Literal.digits_toString _) rest
  | @tuple _ parts h₁ h₂ h =>
    match parts, h₁ with
    | a :: b :: parts, _ =>
      show startsValue
        (byteAt (Utf8.encode (".".intercalate ((a :: b :: parts).map toString)) ++ rest) 0) = true
      rw [Literal.encode_tuple_cons a b parts, List.append_assoc]
      exact startsValue_digits false (Literal.digits_toString a) _
  | @time _ time h hmin =>
    obtain ⟨h, m, sec, tail, htext, hh, -, -, -⟩ := Literal.encode_timeText time
    have htext : (Value.time time).spell t = _ := htext
    rw [htext, List.append_assoc, List.append_assoc]
    exact startsValue_digits _ hh _
  | binary bytes =>
    have htext : (Value.binary bytes).spell t = _ := encode_binaryText bytes
    rw [htext]
    rfl
  | issue hs h =>
    rw [spell_issue]
    rfl
  | word kind hs =>
    rw [spell_word]
    cases kind with
    | word => exact startsValue_name hs.isName rest
    | setWord =>
      dsimp only
      rw [List.append_assoc]
      exact startsValue_name hs.isName _
    | getWord | litWord | refinement => rfl
  | sequence b h =>
    rw [spell_sequence]
    cases b <;> rfl
  | object hnames hset h =>
    rw [spell_object]
    rfl
  | @path _ kind hk first more s hfirst hs hmore hsegment h =>
    have hname : first.value.spell t = Utf8.encode (t.lookup s) := by
      rw [hfirst, spell_word]
    rw [spell_path hk (by rw [hfirst]; exact Value.noConfusion), spellItems_cons t _ _ hmore, hname]
    cases kind with
    | block | paren => cases hk
    | path | setPath =>
      show startsValue (byteAt (_ ++ _ ++ _ ++ rest) 0) = true
      rw [List.append_assoc, List.append_assoc]
      exact startsValue_name hs.isName _
    | getPath | litPath => rfl
  | slotPath hk hslot hfirst hs hmore hsegment h =>
    rw [spell_slotPath hk hslot (List.cons_ne_nil _ _)]
    rfl

/-- **A segment behind a slash** starts with a paren or with no delimiter. -/
theorem Value.Spellable.startsSegment {d : Nat} {v : Value} (h : v.Spellable t d)
    (hv : v.isSegment = true) (rest : Bytes) : byteAt (v.spell t ++ rest) 0 = parenOpen ∨
      isDelimiter (byteAt (v.spell t ++ rest) 0) = false := by
  cases h with
  | @integer _ n h =>
    have htext : (Value.integer n).spell t = _ := Literal.encode_toString_int n
    have hn : ¬n < 0 := by
      have : 0 ≤ n := by simpa [isSegment] using hv
      omega
    have hdigit := (Literal.digits_toString n.natAbs).byteAt_zero rest
    rw [htext, decide_eq_false hn]
    have hsolid : isSolid [] _ = true := isSolid_of_isDigit hdigit
    exact .inr (not_delimiter_of_isSolid hsolid)
  | word kind hs =>
    cases kind with
    | word =>
      rw [spell_word]
      obtain ⟨b, w, hw, -, hsolid⟩ := Lexeme.exists_of_isName hs.isName
      dsimp only
      rw [hw] at hsolid ⊢
      exact .inr (not_delimiter_of_isSolid (hsolid b List.mem_cons_self))
    | _ => cases hv
  | sequence b h =>
    cases b with
    | block => cases hv
    | paren =>
      rw [spell_sequence]
      exact .inl rfl
  | @path _ kind hk =>
    cases kind with
    | block | paren => cases hk
    | _ => cases hv
  | slotPath hk => rcases hk with rfl | rfl <;> cases hv
  | _ => cases hv

/-- A written value is something. -/
theorem Value.Spellable.length_pos {d : Nat} {v : Value} (h : v.Spellable t d) :
    0 < (v.spell t).length := by
  have hstarts := h.starts []
  rw [List.append_nil] at hstarts
  cases hw : v.spell t with
  | nil =>
    rw [hw] at hstarts
    cases hstarts
  | cons b w => exact Nat.succ_pos _

end

end RebolScan
