import RebolScan.Proofs.Scan.Progress
import RebolScan.Scan.Transcode

/-!
# What becomes of closing brackets

`sightings` goes through a scan round by round and notes every closing bracket that a level meets,
with what the level does with it: it ends there and consumes it, it leaves it to a level further out,
or, at the top, it refuses it. The one thing that can happen to a bracket that was left but is not
met again is that a path goes on behind it. `leaps` says when a path does.

The rounds are those of the scanner itself: each is run by `turn`, and only what it met is noted.
-/

set_option autoImplicit false

namespace RebolScan

open Ascii

/-- What became of a closing bracket. -/
inductive Fate
  /-- it closed a level -/
  | closes
  /-- it was refused at the top -/
  | extra
  /-- a level that `opened` had opened ended in front of it -/
  | left (opened : Bracket)
  /-- a path went on behind it -/
  | leapt
deriving DecidableEq, Repr

/-- The bracket is still to be consumed. -/
def Fate.isLeft : Fate → Bool
  | .left _ => true
  | _ => false

/-- A closing bracket that was met, or leapt over, by a level with `room` levels to spare. The more
room a level has, the further out it is. -/
structure Sighting where
  bracket : Bracket
  position : Nat
  room : Nat
  fate : Fate
deriving DecidableEq, Repr

def Sighting.span (x : Sighting) : Span := ⟨x.position, x.position + 1⟩

/-- What follows on a sighting: a level further out meets the bracket that was left, or the scan has
gone past it. -/
def Sighting.Follows (x y : Sighting) : Prop :=
  if x.fate.isLeft then y.bracket = x.bracket ∧ y.position = x.position ∧ x.room < y.room
  else x.position < y.position

/-- What a sighting that is a fault is reported as. -/
def Sighting.report? (x : Sighting) : Option (Bracket × Span × Fate) :=
  match x.fate with
  | .left _ | .extra => some (x.bracket, x.span, x.fate)
  | .closes | .leapt => none

/-- The bracket of a kind of token. -/
def TokenKind.closes? : TokenKind → Option Bracket
  | .blockEnd => some .block
  | .parenEnd => some .paren
  | _ => none

/-- The closing bracket that a fault is about. The end of the input is none. -/
def Fault.closer? (f : Fault) : Option (Bracket × Span × Fate) :=
  match f.kind with
  | .missing opened => f.token.closes?.map fun b => (b, f.span, .left opened)
  | .extra b => some (b, f.span, .extra)
  | _ => none

/-- **When a path goes on behind a bracket that was left in front of `next`**: behind a segment in
brackets when a slash follows, and behind the whole path when a colon does. -/
def Scan.leaps (level : Level) (e : Element) (next : UInt8) : Bool :=
  match e with
  | .opener _ => level == .path && next == slash
  | .pathHead kind => kind != .litWord && next == colon
  | _ => false

namespace Scan

/-- What a level does with a closing bracket. A path ends without taking notice. -/
def fateOf : Level → Bracket → Option Fate
  | .top, _ => some .extra
  | .inside opened, b => some (if opened = b then .closes else .left opened)
  | .path, _ => none

/-- The level that an element opens. -/
def opens : Element → Option Level
  | .pathHead _ => some .path
  | .opener b => some (.inside b)
  | .construct => some (.inside .block)
  | _ => none

/-- Where the level starts that the next element opens: behind the element, or at the head of a
path. -/
def entered (level : Level) (s : Session) : Session :=
  match (s.reading level).element with
  | .pathHead _ => s.looked
  | _ => { s.looked with cursor := s.looked.cursor.advance (s.reading level).taken }

theorem entered_of_not_head {level : Level} {s : Session}
    (hhead : ∀ kind, (s.reading level).element ≠ .pathHead kind) :
    entered level s =
      { s.looked with cursor := s.looked.cursor.advance (s.reading level).taken } := by
  unfold entered
  split
  · rename_i kind he
    exact absurd he (hhead kind)
  · rfl

/-- What the round of a level notes after `w` was noted by the level inside. -/
def withLeap (room : Nat) (level : Level) (e : Element) (source : Bytes) (w : List Sighting) :
    List Sighting :=
  let leapt := w.getLast?.filter fun x =>
    x.fate.isLeft && leaps level e (byteAt source (x.position + 1))
  w ++ (leapt.map fun x => { x with room, fate := .leapt }).toList

/-- What a round notes, with what the levels inside note given. -/
def turnSightings (room : Nat) (inner : Level → Session → List Sighting) (level : Level)
    (s : Session) : List Sighting :=
  match (s.reading level).element with
  | .closer b =>
    ((fateOf level b).map fun fate => ⟨b, s.looked.cursor.start, room, fate⟩).toList
  | e =>
    match opens e with
    | some l => withLeap room level e s.cursor.source (inner l (entered level s))
    | none => []

/-- What the rounds of a level note. -/
def roundsSightings (setup : Setup) (nested : Nested) (room : Nat)
    (inner : Level → Session → List Sighting) (level : Level) (opened : Site) :
    Nat → Collected → Session → List Sighting
  | 0, _, _ => []
  | fuel + 1, c, s =>
    turnSightings room inner level s ++
      match turn setup nested level opened c s with
      | .ok (c', true) t => roundsSightings setup nested room inner level opened fuel c' t
      | _ => []

/-- What a level with room for `room` levels inside it notes. -/
def sightings (setup : Setup) (fuel : Nat) : Nat → Level → Session → List Sighting
  | 0, l, s =>
    roundsSightings setup (inside setup fuel 0) 0 (fun _ _ => []) l
      ⟨s.cursor.line, s.cursor.lineStart⟩ fuel .empty s
  | room + 1, l, s =>
    roundsSightings setup (inside setup fuel (room + 1)) (room + 1) (sightings setup fuel room) l
      ⟨s.cursor.line, s.cursor.lineStart⟩ fuel .empty s

/-- What the levels inside one with room for `room` of them note. -/
def insideSightings (setup : Setup) (fuel : Nat) : Nat → Level → Session → List Sighting
  | 0 => fun _ _ => []
  | room + 1 => sightings setup fuel room

theorem sightings_eq (setup : Setup) (fuel room : Nat) (l : Level) (s : Session) :
    sightings setup fuel room l s =
      roundsSightings setup (inside setup fuel room) room (insideSightings setup fuel room) l
        ⟨s.cursor.line, s.cursor.lineStart⟩ fuel .empty s := by
  cases room <;> rfl

end Scan

/-- The closing brackets that a scan of `source` meets, in order. -/
def Setup.sightings (setup : Setup) (source : Bytes) (symbols : SymbolTable) : List Sighting :=
  Scan.sightings setup (source.length + 1) setup.options.maxDepth .top
    (Session.start source symbols)

end RebolScan
