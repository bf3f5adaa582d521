import RebolScan.Proofs.Token.Extent
import RebolScan.Value.Fault

/-!
# Bracket text

The part of the language that is only about nesting: square brackets and parens around words of small
letters, with spaces and line feeds between. It is described here without a scanner, in two ways.

A `Forest` is what such text may hold, and `Forest.Spelled` is the grammar that spells it. The grammar
is **unambiguous** (`Spelled.unique`). `violation` goes over the text from left to right with the
brackets that are open, and finds **the first place where the text breaks off being well nested within
a depth**, if there is one. Well nested text has no such place (`Spelled.violation_eq`).
-/

set_option autoImplicit false

namespace RebolScan

open Ascii

/-! ## Bytes -/

/-- A space or a line feed. -/
def isBracketBlank (b : UInt8) : Bool := b == space || b == lineFeed

/-- A bracket, a small letter, a space or a line feed: what bracket text is made of. -/
def isBracketByte (b : UInt8) : Bool :=
  b == bracketOpen || b == bracketClose || b == parenOpen || b == parenClose || isLower b ||
    isBracketBlank b

/-- The sorts of bytes in bracket text. -/
inductive BracketByte : UInt8 → Prop
  | opener (b : Bracket) : BracketByte b.openByte
  | closer (b : Bracket) : BracketByte b.closeByte
  | letter {b : UInt8} (h : isLower b = true) : BracketByte b
  | blank {b : UInt8} (h : isBracketBlank b = true) : BracketByte b

theorem bracketByte_of {b : UInt8} (h : isBracketByte b = true) : BracketByte b := by
  simp only [isBracketByte, Bool.or_eq_true, beq_iff_eq] at h
  rcases h with ((((rfl | rfl) | rfl) | rfl) | h) | h
  · exact .opener .block
  · exact .closer .block
  · exact .opener .paren
  · exact .closer .paren
  · exact .letter h
  · exact .blank h

namespace Bracket

/-- The pair of brackets that a byte opens. -/
def opened? (b : UInt8) : Option Bracket :=
  if b == bracketOpen then some .block else if b == parenOpen then some .paren else none

/-- The pair of brackets that a byte closes. -/
def closed? (b : UInt8) : Option Bracket :=
  if b == bracketClose then some .block else if b == parenClose then some .paren else none

@[simp] theorem opened?_openByte (b : Bracket) : opened? b.openByte = some b := by cases b <;> rfl

@[simp] theorem opened?_closeByte (b : Bracket) : opened? b.closeByte = none := by cases b <;> rfl

@[simp] theorem closed?_closeByte (b : Bracket) : closed? b.closeByte = some b := by cases b <;> rfl

theorem openByte_injective {b b' : Bracket} (h : b.openByte = b'.openByte) : b = b' := by
  have := congrArg opened? h
  rwa [opened?_openByte, opened?_openByte, Option.some.injEq] at this

end Bracket

/-- A byte that is no bracket. -/
def IsPlain (b : UInt8) : Prop := Bracket.opened? b = none ∧ Bracket.closed? b = none

theorem isPlain_of_isLower {b : UInt8} (h : isLower b = true) : IsPlain b := by
  constructor
  · rw [Bracket.opened?, beq_false_of_class h rfl, beq_false_of_class h rfl]
    rfl
  · rw [Bracket.closed?, beq_false_of_class h rfl, beq_false_of_class h rfl]
    rfl

theorem eq_of_isBracketBlank {b : UInt8} (h : isBracketBlank b = true) :
    b = space ∨ b = lineFeed := by
  rw [isBracketBlank, Bool.or_eq_true, beq_iff_eq, beq_iff_eq] at h
  exact h

theorem isPlain_of_isBracketBlank {b : UInt8} (h : isBracketBlank b = true) : IsPlain b := by
  rcases eq_of_isBracketBlank h with rfl | rfl <;> exact ⟨rfl, rfl⟩

theorem not_isLower_of_isBracketBlank {b : UInt8} (h : isBracketBlank b = true) :
    isLower b = false := by
  rcases eq_of_isBracketBlank h with rfl | rfl <;> rfl

theorem not_isLower_closeByte (b : Bracket) : isLower b.closeByte = false := by cases b <;> rfl

/-! ## Forests -/

/-- Words and bracketed groups, one after the other. -/
inductive Forest
  | nil
  | word (letters : Bytes) (rest : Forest)
  | nest (b : Bracket) (inner rest : Forest)

namespace Forest

/-- The brackets on the longest way inwards. -/
def depth : Forest → Nat
  | nil => 0
  | word _ rest => rest.depth
  | nest _ inner rest => max (inner.depth + 1) rest.depth

/-- The text spells the forest. Only one letter after another makes a word longer. -/
inductive Spelled : Forest → Bytes → Prop
  | nil : Spelled nil []
  | blank {f : Forest} {b : UInt8} {w : Bytes} (hb : isBracketBlank b = true) (h : Spelled f w) :
      Spelled f (b :: w)
  | word {f : Forest} {letters w : Bytes} (hne : letters ≠ [])
      (hletters : ∀ b ∈ letters, isLower b = true) (hend : isLower (byteAt w 0) = false)
      (h : Spelled f w) : Spelled (.word letters f) (letters ++ w)
  | nest {inner rest : Forest} {v w : Bytes} (b : Bracket) (hinner : Spelled inner v)
      (hrest : Spelled rest w) : Spelled (.nest b inner rest) (b.openByte :: v ++ b.closeByte :: w)

theorem Spelled.blanks {f : Forest} {v w : Bytes} (hv : ∀ b ∈ v, isBracketBlank b = true)
    (h : f.Spelled w) : f.Spelled (v ++ w) := by
  induction v with
  | nil => exact h
  | cons b v ih =>
    rw [List.forall_mem_cons] at hv
    exact .blank hv.1 (ih hv.2)

/-! ### One spelling, one forest -/

/-- Bracket text ends here, or a bracket closes. -/
def Stops : Bytes → Prop
  | [] => True
  | b :: _ => ∃ open?, b = Bracket.closeByte open?

/-- What starts a forest that is spelled, no stop starts with. -/
theorem Spelled.starts {f : Forest} {v w : Bytes} (h : f.Spelled v) (hs : Stops (v ++ w)) :
    f = .nil ∧ v = [] := by
  have hcloser {b : UInt8} {text : Bytes} (hs : Stops (b :: text)) :
      (isBracketBlank b || isLower b || (Bracket.opened? b).isSome) = false := by
    obtain ⟨b', rfl⟩ := hs
    cases b' <;> rfl
  cases h with
  | nil => exact ⟨rfl, rfl⟩
  | blank hb =>
    have := hcloser hs
    rw [hb] at this
    cases this
  | @word f letters w' hne hletters =>
    cases letters with
    | nil => exact absurd rfl hne
    | cons b letters =>
      have := hcloser hs
      rw [hletters b List.mem_cons_self, Bool.or_true] at this
      cases this
  | nest b =>
    have := hcloser hs
    rw [Bracket.opened?_openByte, Option.isSome_some, Bool.or_true] at this
    cases this

/-- Letters before something else are found again. -/
theorem takeWhile_letters {letters w : Bytes} (hletters : ∀ b ∈ letters, isLower b = true)
    (hend : isLower (byteAt w 0) = false) :
    (letters ++ w).takeWhile isLower = letters := by
  rw [List.takeWhile_append_of_pos hletters]
  cases w with
  | nil => rw [List.takeWhile_nil, List.append_nil]
  | cons b w =>
    rw [byteAt_cons_zero] at hend
    rw [List.takeWhile_cons_of_neg (by simp [hend]), List.append_nil]

theorem Stops.not_isLower {w : Bytes} (h : Stops w) : isLower (byteAt w 0) = false := by
  cases w with
  | nil => rfl
  | cons b w =>
    obtain ⟨b', rfl⟩ := h
    rw [byteAt_cons_zero]
    exact not_isLower_closeByte b'

/-- What comes behind a word goes on not to be a letter where a stop follows. -/
theorem not_isLower_append {v w : Bytes} (hv : isLower (byteAt v 0) = false) (hw : Stops w) :
    isLower (byteAt (v ++ w) 0) = false := by
  cases v with
  | nil => exact hw.not_isLower
  | cons b v => exact hv

/-- The classes of bytes that a forest may start with are apart. -/
theorem openByte_ne {b : Bracket} {c : UInt8} (hc : isBracketBlank c = true ∨ isLower c = true) :
    b.openByte ≠ c := by
  rintro rfl
  rcases hc with h | h <;> cases b <;> cases h

/-- A word starts with a letter. -/
theorem exists_letter {letters : Bytes} (hne : letters ≠ [])
    (hletters : ∀ b ∈ letters, isLower b = true) :
    ∃ b rest, letters = b :: rest ∧ isLower b = true := by
  obtain ⟨b, rest, rfl⟩ := List.exists_cons_of_ne_nil hne
  exact ⟨b, rest, rfl, hletters b List.mem_cons_self⟩

/-- **A text spells one forest at most**, and where a stop follows it spells it up to there. -/
theorem Spelled.unique {f f' : Forest} {v v' w w' : Bytes} (h : f.Spelled v) (h' : f'.Spelled v')
    (he : v ++ w = v' ++ w') (hw : Stops w) (hw' : Stops w') : f = f' ∧ v = v' := by
  induction h generalizing f' v' w w' with
  | nil =>
    obtain ⟨rfl, rfl⟩ := h'.starts (by rwa [← he])
    exact ⟨rfl, rfl⟩
  | @blank f b u hb h ih =>
    cases h' with
    | nil =>
      obtain ⟨-, hnil⟩ := (Spelled.blank hb h).starts (w := w) (by rwa [he])
      cases hnil
    | blank hb' h' =>
      injection he with hbyte he
      obtain ⟨rfl, rfl⟩ := ih h' he hw hw'
      exact ⟨rfl, by rw [hbyte]⟩
    | word hne hletters =>
      obtain ⟨b', rest, rfl, hlower⟩ := exists_letter hne hletters
      injection he with hbyte
      rw [← hbyte, not_isLower_of_isBracketBlank hb] at hlower
      cases hlower
    | nest b' =>
      injection he with hbyte
      exact absurd hbyte.symm (openByte_ne (.inl hb))
  | @word f letters u hne hletters hend h ih =>
    cases h' with
    | nil =>
      obtain ⟨-, hnil⟩ := (Spelled.word hne hletters hend h).starts (w := w) (by rwa [he])
      exact absurd (List.append_eq_nil_iff.1 hnil).1 hne
    | blank hb' =>
      obtain ⟨b, rest, rfl, hlower⟩ := exists_letter hne hletters
      injection he with hbyte
      rw [hbyte, not_isLower_of_isBracketBlank hb'] at hlower
      cases hlower
    | @word f' letters' u' hne' hletters' hend' h' =>
      rw [List.append_assoc, List.append_assoc] at he
      have hsame : letters = letters' := by
        rw [← takeWhile_letters hletters (not_isLower_append hend hw), he,
          takeWhile_letters hletters' (not_isLower_append hend' hw')]
      subst hsame
      obtain ⟨rfl, rfl⟩ := ih h' (List.append_cancel_left he) hw hw'
      exact ⟨rfl, rfl⟩
    | nest b' =>
      obtain ⟨b, rest, rfl, hlower⟩ := exists_letter hne hletters
      injection he with hbyte
      exact absurd hbyte.symm (openByte_ne (.inr hlower))
  | @nest inner rest v₁ v₂ b hinner hrest ihinner ihrest =>
    cases h' with
    | nil =>
      obtain ⟨-, hnil⟩ := (Spelled.nest b hinner hrest).starts (w := w) (by rwa [he])
      cases hnil
    | blank hb' =>
      injection he with hbyte
      exact absurd hbyte (openByte_ne (.inl hb'))
    | word hne' hletters' =>
      obtain ⟨b', rest, rfl, hlower⟩ := exists_letter hne' hletters'
      injection he with hbyte
      exact absurd hbyte (openByte_ne (.inr hlower))
    | @nest inner' rest' v₁' v₂' b' hinner' hrest' =>
      have hcons {v : Bytes} {b : UInt8} {v₁ v₂ : Bytes} :
          (b :: v₁ ++ v₂) ++ v = b :: (v₁ ++ (v₂ ++ v)) := by
        rw [List.cons_append, List.cons_append, List.append_assoc]
      rw [hcons, hcons] at he
      injection he with hbyte he
      obtain rfl := Bracket.openByte_injective hbyte
      obtain ⟨rfl, rfl⟩ := ihinner hinner' he ⟨b, rfl⟩ ⟨b, rfl⟩
      injection List.append_cancel_left he with _ he
      obtain ⟨rfl, rfl⟩ := ihrest hrest' he hw hw'
      exact ⟨rfl, rfl⟩

end Forest

/-! ## The first violation -/

/-- Where the text from `pos` on, met with `stack` open, innermost first, stops being well nested
within `d` levels: at a bracket that closes nothing, at the other bracket or the end where one has to
be closed, or at an opener too many. -/
def violation (d : Nat) : Nat → List Bracket → Bytes → Option (FaultKind × Span)
  | pos, stack, [] => stack.head?.map fun b => (.missing b, ⟨pos, pos⟩)
  | pos, stack, c :: rest =>
    match Bracket.opened? c with
    | some b =>
      if stack.length < d then violation d (pos + 1) (b :: stack) rest
      else some (.tooDeep, ⟨pos, pos + 1⟩)
    | none =>
      match Bracket.closed? c with
      | none => violation d (pos + 1) stack rest
      | some b =>
        match stack with
        | [] => some (.extra b, ⟨pos, pos + 1⟩)
        | open? :: stack =>
          if open? = b then violation d (pos + 1) stack rest
          else some (.missing open?, ⟨pos, pos + 1⟩)

section

variable {d : Nat}

theorem violation_opener (pos : Nat) (stack : List Bracket) (b : Bracket) (rest : Bytes) :
    violation d pos stack (b.openByte :: rest) =
      if stack.length < d then violation d (pos + 1) (b :: stack) rest
      else some (.tooDeep, ⟨pos, pos + 1⟩) := by
  simp only [violation, Bracket.opened?_openByte]

theorem violation_extra (pos : Nat) (b : Bracket) (rest : Bytes) :
    violation d pos [] (b.closeByte :: rest) = some (.extra b, ⟨pos, pos + 1⟩) := by
  simp only [violation, Bracket.opened?_closeByte, Bracket.closed?_closeByte]

theorem violation_closer (pos : Nat) (stack : List Bracket) (open? b : Bracket) (rest : Bytes) :
    violation d pos (open? :: stack) (b.closeByte :: rest) =
      if open? = b then violation d (pos + 1) stack rest
      else some (.missing open?, ⟨pos, pos + 1⟩) := by
  simp only [violation, Bracket.opened?_closeByte, Bracket.closed?_closeByte]

/-- Bytes that are no brackets violate nothing. -/
theorem violation_plain (pos : Nat) (stack : List Bracket) {v : Bytes} (hv : ∀ b ∈ v, IsPlain b)
    (w : Bytes) : violation d pos stack (v ++ w) = violation d (pos + v.length) stack w := by
  induction v generalizing pos with
  | nil => rfl
  | cons b v ih =>
    rw [List.forall_mem_cons] at hv
    rw [List.cons_append, violation, hv.1.1, hv.1.2]
    dsimp only
    rw [ih _ hv.2, List.length_cons, Nat.add_assoc, Nat.add_comm 1]

/-- **Well nested text within the depth has no violation**: what is found is found behind it. -/
theorem Forest.Spelled.violation_eq {f : Forest} {v : Bytes} (h : f.Spelled v) (pos : Nat)
    {stack : List Bracket} (hd : stack.length + f.depth ≤ d) (w : Bytes) :
    violation d pos stack (v ++ w) = violation d (pos + v.length) stack w := by
  induction h generalizing pos stack w with
  | nil => rfl
  | @blank f b v hb h ih =>
    have hb : violation d pos stack (b :: (v ++ w)) = violation d (pos + 1) stack (v ++ w) :=
      violation_plain pos stack (List.forall_mem_singleton.2 (isPlain_of_isBracketBlank hb)) _
    rw [List.cons_append, hb, ih _ hd, List.length_cons, Nat.add_assoc, Nat.add_comm 1]
  | @word f letters v hne hletters hend h ih =>
    rw [List.append_assoc, violation_plain pos stack fun b hb => isPlain_of_isLower (hletters b hb),
      ih _ hd, List.length_append, Nat.add_assoc]
  | @nest inner rest v₁ v₂ b hinner hrest ihinner ihrest =>
    rw [Forest.depth] at hd
    have hinner : (b :: stack).length + inner.depth ≤ d := by
      rw [List.length_cons]
      omega
    have hrest : stack.length + rest.depth ≤ d := by omega
    have hroom : stack.length < d := by omega
    have hlength : pos + 1 + v₁.length + 1 + v₂.length =
        pos + (b.openByte :: v₁ ++ b.closeByte :: v₂).length := by
      simp only [List.cons_append, List.length_cons, List.length_append]
      omega
    rw [List.append_assoc, List.cons_append, List.cons_append, violation_opener, if_pos hroom,
      ihinner _ hinner, violation_closer, if_pos rfl, ihrest _ hrest, hlength]

end

end RebolScan
