import RebolScan.Proofs.Text.Utf8
import RebolScan.Proofs.Token.Solid

/-!
# Enclosed lexemes

A quoted form, a character and a tag end at a mark of their own. What they are is settled when that
mark is reached: **an enclosed lexeme that ends within a front `r` of the text is the same whatever
stands behind `r`**. So it is said of each reader, from the characters up, that a result of no more
than `r.length` bytes does not depend on what follows `r`.

This is not a matter of reading left to right alone. A caret escape is tried as hexadecimal digits
first and then as one name after the other, and an attempt that fails may have looked further than
the one that succeeds. But each of them closes with a parenthesis, and the first one there is decides.
-/

set_option autoImplicit false

namespace RebolScan

open Ascii

variable {r x : Bytes}

/-- Up to where a front ends its bytes are the same whatever follows. -/
theorem byteAt_append_swap {i : Nat} (h : i < r.length) (x y : Bytes) :
    byteAt (r ++ y) i = byteAt (r ++ x) i := by
  rw [byteAt_append_left h, byteAt_append_left h]

theorem drop_append_left {n : Nat} (h : n ≤ r.length) (x : Bytes) :
    (r ++ x).drop n = r.drop n ++ x := List.drop_append_of_le_length h

/-- Where a front does not meet a test throughout, what follows it is not taken. -/
theorem takeWhile_append_of_stops (p : UInt8 → Bool) {i : Nat} (hi : i < r.length)
    (h : p (byteAt r i) = false) (x : Bytes) : (r ++ x).takeWhile p = r.takeWhile p := by
  induction r generalizing i with
  | nil => cases hi
  | cons b r ih =>
    cases hb : p b with
    | false => simp [hb]
    | true =>
      cases i with
      | zero =>
        rw [byteAt_cons_zero, hb] at h
        cases h
      | succ i =>
        rw [byteAt_cons_succ] at h
        have hr := ih (Nat.lt_of_succ_lt_succ hi) h
        rw [List.cons_append, List.takeWhile_cons_of_pos hb, List.takeWhile_cons_of_pos hb, hr]

/-- A test that a byte fails ends there at the latest. -/
theorem length_takeWhile_le_of_stops (p : UInt8 → Bool) {i : Nat} (h : p (byteAt r i) = false)
    (hi : i < r.length) : (r.takeWhile p).length ≤ i := by
  rcases Nat.lt_or_ge i (r.takeWhile p).length with hlt | hle
  · have hget : (r.takeWhile p)[i] = byteAt r i := by
      rw [byteAt, List.getD_eq_getElem?_getD, List.getElem?_eq_getElem hi]
      exact (List.takeWhile_prefix p).getElem hlt
    have hp : p (r.takeWhile p)[i] = true :=
      List.all_eq_true.1 List.all_takeWhile _ (List.getElem_mem hlt)
    rw [hget, h] at hp
    cases hp
  · exact hle

theorem findSome?_congr {α β : Type} {f g : α → Option β} {l : List α}
    (h : ∀ a ∈ l, f a = g a) : l.findSome? f = l.findSome? g := by
  induction l with
  | nil => rfl
  | cons a l ih =>
    rw [List.findSome?_cons, List.findSome?_cons, h a List.mem_cons_self,
      ih fun b hb => h b (List.mem_cons_of_mem a hb)]

/-- A decision that does not change leaves a result that neither branch changes. -/
theorem ite_imp {α : Type} {c : Prop} [Decidable c] {a a' b b' z : α} (ha : a = z → a' = z)
    (hb : b = z → b' = z) (h : (if c then a else b) = z) : (if c then a' else b') = z := by
  split at h
  · rw [if_pos ‹c›]
    exact ha h
  · rw [if_neg ‹¬c›]
    exact hb h

theorem Utf8.decodeChar_append {c : Char} {n : Nat} (h : decodeChar (r ++ x) = some (c, n))
    (hn : n ≤ r.length) (y : Bytes) : decodeChar (r ++ y) = some (c, n) := by
  have htake := decodeChar_take h (r.drop n ++ y)
  rwa [List.take_append_of_le_length hn, ← List.append_assoc, List.take_append_drop] at htake

/-! ## Caret escapes -/

namespace Caret

/-- What `readName` tries of one name. -/
def readAs (body : Bytes) (name : String × Char) : Option (Char × Nat) :=
  let spelled := Utf8.encode name.1
  if sameIgnoringCase (body.take spelled.length) spelled
      && byteAt body spelled.length == parenClose then
    some (name.2, spelled.length + 1)
  else none

theorem readName_eq (body : Bytes) : readName body = escapeNames.findSome? (readAs body) := rfl

theorem readAs_eq_some {body : Bytes} {name : String × Char} {c : Char} {n : Nat}
    (h : readAs body name = some (c, n)) :
    n = (Utf8.encode name.1).length + 1 ∧
      sameIgnoringCase (body.take (Utf8.encode name.1).length) (Utf8.encode name.1) = true ∧
      byteAt body (Utf8.encode name.1).length = parenClose := by
  unfold readAs at h
  dsimp only at h
  split at h
  · rename_i hc
    rw [Bool.and_eq_true, beq_iff_eq] at hc
    cases h
    exact ⟨rfl, hc⟩
  · cases h

/-- A name is closed by a parenthesis. -/
theorem readName_closes {body : Bytes} {c : Char} {n : Nat} (h : readName body = some (c, n)) :
    ∃ m, n = m + 1 ∧ byteAt body m = parenClose := by
  obtain ⟨name, -, hname⟩ := List.exists_of_findSome?_eq_some h
  obtain ⟨hn, -, hclose⟩ := readAs_eq_some hname
  exact ⟨_, hn, hclose⟩

/-- No name holds a parenthesis. -/
theorem escapeNames_open :
    ∀ name ∈ escapeNames, parenClose ∉ (Utf8.encode name.1).map toUpper := by decide +kernel

theorem readAs_append (name : String × Char) (h : (Utf8.encode name.1).length < r.length)
    (x y : Bytes) : readAs (r ++ y) name = readAs (r ++ x) name := by
  unfold readAs
  dsimp only
  rw [List.take_append_of_le_length (Nat.le_of_lt h),
    List.take_append_of_le_length (Nat.le_of_lt h),
    byteAt_append_swap h x y]

/-- A name that reaches behind the first parenthesis is not read. -/
theorem readAs_eq_none {name : String × Char} (hopen : parenClose ∉ (Utf8.encode name.1).map toUpper)
    {body : Bytes} {m : Nat} (hm : m < (Utf8.encode name.1).length) (hlen : m < body.length)
    (hclose : byteAt body m = parenClose) : readAs body name = none := by
  cases h : readAs body name with
  | none => rfl
  | some read =>
    obtain ⟨c, n⟩ := read
    obtain ⟨-, hsame, -⟩ := readAs_eq_some h
    refine absurd ?_ hopen
    have hmap : (body.take (Utf8.encode name.1).length).map toUpper =
        (Utf8.encode name.1).map toUpper := eq_of_beq hsame
    rw [← hmap]
    refine List.mem_map.2 ⟨parenClose, ?_, by decide⟩
    rw [byteAt, List.getD_eq_getElem?_getD, List.getElem?_eq_getElem hlen] at hclose
    rw [List.mem_take_iff_getElem]
    exact ⟨m, by omega, hclose⟩

theorem readName_append {c : Char} {n : Nat} (h : readName (r ++ x) = some (c, n))
    (hn : n ≤ r.length) (y : Bytes) : readName (r ++ y) = some (c, n) := by
  obtain ⟨m, rfl, hclose⟩ := readName_closes h
  have hclose' : byteAt (r ++ y) m = parenClose := (byteAt_append_swap hn x y).trans hclose
  rw [readName_eq] at h ⊢
  rw [← h]
  -- A name that is not over within `r` has the parenthesis in it, in both texts.
  refine findSome?_congr fun name hname => ?_
  rcases Nat.lt_or_ge (Utf8.encode name.1).length r.length with hlt | hge
  · exact readAs_append name hlt x y
  · rw [readAs_eq_none (escapeNames_open name hname) (by omega)
        (by rw [List.length_append]; omega) hclose,
      readAs_eq_none (escapeNames_open name hname) (by omega)
        (by rw [List.length_append]; omega) hclose']

theorem readParenthesized_closes {body : Bytes} {c : Char} {n : Nat}
    (h : readParenthesized body = some (c, n)) : ∃ m, n = m + 1 ∧ byteAt body m = parenClose := by
  unfold readParenthesized at h
  dsimp only at h
  split at h
  · cases h
  · split at h
    · rename_i hd
      rw [Bool.and_eq_true, beq_iff_eq] at hd
      split at h
      · cases h
        exact ⟨_, rfl, hd.2⟩
      · cases h
    · exact readName_closes h

theorem readParenthesized_append {c : Char} {n : Nat}
    (h : readParenthesized (r ++ x) = some (c, n)) (hn : n ≤ r.length) (y : Bytes) :
    readParenthesized (r ++ y) = some (c, n) := by
  obtain ⟨m, rfl, hclose⟩ := readParenthesized_closes h
  rw [byteAt_append_left hn] at hclose
  have hstop : (hexDigit? (byteAt r m)).isSome = false := by
    rw [hclose]
    rfl
  have hlen := length_takeWhile_le_of_stops (fun b => (hexDigit? b).isSome) hstop hn
  unfold readParenthesized at h ⊢
  dsimp only at h ⊢
  rw [takeWhile_append_of_stops (fun b => (hexDigit? b).isSome) hn hstop] at h ⊢
  split at h
  · cases h
  · rename_i hfour
    rw [if_neg hfour, byteAt_append_swap (by omega) x y]
    split at h
    · rename_i hd
      rwa [if_pos hd]
    · rename_i hd
      rw [if_neg hd]
      exact readName_append h hn y

theorem readEscape_append {c : Char} {n : Nat} (h : readEscape (r ++ x) = some (c, n))
    (hr : 1 ≤ r.length) (hn : n ≤ r.length) (y : Bytes) : readEscape (r ++ y) = some (c, n) := by
  unfold readEscape at h ⊢
  dsimp only at h ⊢
  rw [byteAt_append_swap hr x y]
  refine ite_imp id (ite_imp id (ite_imp id (ite_imp id (ite_imp id (ite_imp ?_ (ite_imp id
    (ite_imp id (ite_imp ?_ id)))))))) h
  · intro h
    obtain ⟨⟨d, m⟩, hread, he⟩ := Option.map_eq_some_iff.1 h
    obtain ⟨rfl, rfl⟩ := Prod.mk.inj he
    rw [drop_append_left hr] at hread ⊢
    rw [readParenthesized_append hread (by rw [List.length_drop]; omega) y]
    rfl
  · exact fun h => Utf8.decodeChar_append h hn y

/-- **A character that ends within a front is the same whatever stands behind it.** The front has two
bytes at least, for a caret at its end would escape what stands behind. -/
theorem read_append {c : Char} {n : Nat} (h : read (r ++ x) = some (c, n)) (htwo : 2 ≤ r.length)
    (hn : n ≤ r.length) (y : Bytes) : read (r ++ y) = some (c, n) := by
  have hr : 1 ≤ r.length := Nat.le_of_succ_le htwo
  unfold read at h ⊢
  dsimp only at h ⊢
  rw [byteAt_append_swap hr x y]
  refine ite_imp (fun h => Utf8.decodeChar_append h hn y) (ite_imp ?_ id) h
  intro h
  obtain ⟨⟨d, m⟩, hread, he⟩ := Option.map_eq_some_iff.1 h
  obtain ⟨rfl, rfl⟩ := Prod.mk.inj he
  rw [drop_append_left hr] at hread ⊢
  rw [readEscape_append hread (by rw [List.length_drop]; omega) (by rw [List.length_drop]; omega) y]
  rfl

end Caret

/-! ## Quoted text -/

namespace Quoted

theorem next?_append {braced : Bool} {c : Char} {n : Nat} (h : next? braced (r ++ x) = some (c, n))
    (hn : n < r.length) (y : Bytes) : next? braced (r ++ y) = some (c, n) := by
  have hr : 1 ≤ r.length := Nat.succ_le_of_lt (Nat.zero_lt_of_lt hn)
  have h1 := (next?_width h).1
  unfold next? at h ⊢
  dsimp only at h ⊢
  rw [byteAt_append_swap hr x y, byteAt_append_swap (by omega) x y]
  exact ite_imp id (ite_imp id fun h => Caret.read_append h (by omega) (Nat.le_of_lt hn) y) h

theorem readFrom_append {braced : Bool} {pos nest lines lineStart : Nat} {found : List Char}
    {e : Extent} (h : (readFrom braced (r ++ x) pos nest lines lineStart found).2 = some e)
    (hle : e.length ≤ pos + r.length) (y : Bytes) :
    readFrom braced (r ++ y) pos nest lines lineStart found =
      readFrom braced (r ++ x) pos nest lines lineStart found := by
  generalize hlen : r.length = len
  induction len using Nat.strongRecOn generalizing r pos nest lines lineStart found with
  | ind len ih =>
    subst hlen
    have hpos := (readFrom_extent h).1
    have hr : 1 ≤ r.length := by omega
    by_cases hc : (byteAt (r ++ x) 0 == closing braced && nest == 0) = true
    · rw [readFrom, readFrom.eq_def braced (r ++ x), byteAt_append_swap hr x y, if_pos hc, if_pos hc]
    · cases hnext : next? braced (r ++ x) with
      | none =>
        rw [readFrom, if_neg hc] at h
        split at h
        · cases h
        · rename_i he
          rw [hnext] at he
          cases he
      | some read =>
        obtain ⟨c, n⟩ := read
        have h1 := (next?_width hnext).1
        rw [readFrom_next hc hnext] at h ⊢
        have hn : n < r.length := by
          have := (readFrom_extent h).1
          omega
        have hc' : ¬(byteAt (r ++ y) 0 == closing braced && nest == 0) = true := by
          rwa [byteAt_append_swap hr x y]
        rw [readFrom_next hc' (next?_append hnext hn y), byteAt_append_swap hr x y,
          drop_append_left (Nat.le_of_lt hn)]
        rw [drop_append_left (Nat.le_of_lt hn)] at h ⊢
        have hdrop : (r.drop n).length = r.length - n := List.length_drop
        exact ih _ (by omega) h (by omega) rfl

/-- **A quoted text that ends within a front is the same whatever stands behind it.** -/
theorem read_append {e : Extent} (h : (read (r ++ x)).extent = some e) (hle : e.length ≤ r.length)
    (y : Bytes) : read (r ++ y) = read (r ++ x) := by
  have hr : 1 ≤ r.length := by
    have := (read_extent h).1
    omega
  have hdrop : (r.drop 1).length = r.length - 1 := List.length_drop
  unfold read at h ⊢
  dsimp only at h ⊢
  rw [byteAt_append_swap hr x y, drop_append_left hr]
  rw [drop_append_left hr] at h ⊢
  rw [readFrom_append h (by omega) y]

end Quoted

/-! ## Tags -/

namespace Tag

theorem lengthFrom_append {quoted : Bool} {pos n : Nat} (h : lengthFrom quoted pos (r ++ x) = some n)
    (hn : n ≤ pos + r.length) (y : Bytes) : lengthFrom quoted pos (r ++ y) = some n := by
  induction r generalizing quoted pos with
  | nil =>
    have := (lengthFrom_bounds h).1
    simp at hn
    omega
  | cons b r ih =>
    rw [List.length_cons] at hn
    rw [List.cons_append, lengthFrom] at h ⊢
    exact ite_imp id (ite_imp (fun h => ih h (by omega)) (ite_imp id fun h => ih h (by omega))) h

theorem length?_append {n : Nat} (h : length? (r ++ x) = some n) (hn : n ≤ r.length) (y : Bytes) :
    length? (r ++ y) = some n := by
  have hr : 1 ≤ r.length := Nat.le_trans (length?_bounds h).1 hn
  unfold length? at h ⊢
  rw [byteAt_append_swap hr x y, drop_append_left hr]
  rw [drop_append_left hr] at h
  refine ite_imp (fun h => lengthFrom_append h ?_ y) (fun h => lengthFrom_append h ?_ y) h
  · rw [List.length_drop]
    omega
  · omega

end Tag

/-! ## Lexemes -/

/-- The kinds that end at a mark of their own. -/
def TokenKind.isEnclosed : TokenKind → Bool
  | .string | .binary | .char | .file | .tag => true
  | _ => false

namespace Lexeme

/-- Where the text behind the first `n` bytes is replaced, `l` becomes `l'`: it stays what it is if
it ends there, and only a malformed or an enclosed one does not. -/
inductive Kept (n : Nat) : Lexeme → Lexeme → Prop
  | malformed {l l' : Lexeme} (h : l.malformed = true) : Kept n l l'
  | same {l : Lexeme} (h : l.length ≤ n) : Kept n l l
  | past {l l' : Lexeme} (hk : l.kind.isEnclosed = true) (h : n < l.length) : Kept n l l'

variable {n : Nat}

theorem Kept.bad (kind : TokenKind) (m : Nat) (l' : Lexeme) : Kept n (bad kind m) l' :=
  .malformed rfl

theorem Kept.good (kind : TokenKind) {m : Nat} (h : m ≤ n) : Kept n (good kind m) (good kind m) :=
  .same h

/-- An enclosed lexeme is kept if it is the same wherever it ends in front. -/
theorem Kept.of_enclosed {l l' : Lexeme} (hk : l.kind.isEnclosed = true)
    (h : l.malformed = false → l.length ≤ n → l' = l) : Kept n l l' := by
  cases hw : l.malformed with
  | true => exact .malformed hw
  | false =>
    rcases Nat.lt_or_ge n l.length with hlt | hle
    · exact .past hk hlt
    · rw [h hw hle]
      exact .same hle

variable {w : Bytes}

theorem kept_quoted {kind : TokenKind} (hk : kind.isEnclosed = true) {skip : Nat}
    (hskip : skip ≤ w.length) (x y : Bytes) :
    Kept w.length (quoted kind (w ++ x) skip) (quoted kind (w ++ y) skip) := by
  refine .of_enclosed (by rwa [quoted_kind]) fun hw hle => ?_
  have hdrop : (w.drop skip).length = w.length - skip := List.length_drop
  unfold quoted at hw hle ⊢
  dsimp only at hw hle ⊢
  rw [drop_append_left hskip] at hw hle ⊢
  rw [drop_append_left hskip]
  cases he : (Quoted.read (w.drop skip ++ x)).extent with
  | none =>
    rw [he] at hw
    cases hw
  | some e =>
    rw [he] at hle
    dsimp only at hle
    rw [Quoted.read_append he (by omega) y, he]

theorem character_kind (text : Bytes) (skip : Nat) : (character text skip).kind = .char := by
  unfold character
  split
  · split
    · rfl
    · rfl
  · rfl

theorem kept_character {skip : Nat} (hskip : skip + 2 ≤ w.length) (x y : Bytes) :
    Kept w.length (character (w ++ x) skip) (character (w ++ y) skip) := by
  refine .of_enclosed (by rw [character_kind]; rfl) fun hw hle => ?_
  have hdrop : (w.drop (skip + 2)).length = w.length - (skip + 2) := List.length_drop
  unfold character at hw hle ⊢
  rw [drop_append_left hskip] at hw hle ⊢
  rw [drop_append_left hskip]
  cases hread : Caret.read (w.drop (skip + 2) ++ x) with
  | none =>
    rw [hread] at hw
    cases hw
  | some read =>
    obtain ⟨c, n⟩ := read
    rw [hread] at hw hle
    dsimp only at hw hle ⊢
    split at hle
    · rename_i hq
      have hlt : skip + 2 + n < w.length := hle
      have hwidth := Caret.read_width hread
      rw [Caret.read_append hread (by omega) (by omega) y]
      dsimp only
      rw [byteAt_append_swap hlt x y, if_pos hq, if_pos hq]
    · rename_i hq
      rw [if_neg hq] at hw
      cases hw

end Lexeme

end RebolScan
