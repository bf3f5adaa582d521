import RebolScan.Scan.Construct
import RebolScan.Scan.Scanner

/-!
# Transcoding

`transcode` scans source text into values, as the options ask for: all of it or the first value,
strictly or passing over faults. It says how much of the source it consumed, so that a caller can go
on from there. The symbol table comes out of a scan however the scan ends.
-/

set_option autoImplicit false

namespace RebolScan

structure Transcoded where
  values : Block
  /-- where scanning stopped; the whole source, unless one value was asked for -/
  consumed : Nat
  /-- the faults that were passed over, in the order in which they were met -/
  faults : List Fault

/-- A scan that a fault ended. -/
structure Failure where
  fault : Fault
  /-- how many faults the scan met, the last one among them -/
  count : Nat
deriving DecidableEq, Repr

/-- The state in which a scan starts. -/
def Session.start (source : Bytes) (symbols : SymbolTable) : Session :=
  ⟨Cursor.afterMark source, symbols, [], 0⟩

/-- The whole scan: the top level, with room for as many levels as the options allow. -/
def Setup.scan (setup : Setup) (source : Bytes) : Scan Block :=
  Scan.level setup (source.length + 1) setup.options.maxDepth .top

/-- Scans `source`, with a constructor of the caller's. -/
def transcodeWith (construct : Constructor) (source : Bytes) (symbols : SymbolTable)
    (options : Options) : Except Failure Transcoded × SymbolTable :=
  match Setup.scan ⟨options, construct⟩ source (Session.start source symbols) with
  | .ok values s => (.ok ⟨values, s.cursor.start, s.faults.reverse⟩, s.symbols)
  | .error fault s => (.error ⟨fault, s.faultCount⟩, s.symbols)

theorem transcodeWith_eq_ok {construct : Constructor} {source : Bytes}
    {symbols table : SymbolTable} {options : Options} {t : Transcoded} :
    transcodeWith construct source symbols options = (.ok t, table) ↔
      ∃ s, Setup.scan ⟨options, construct⟩ source (Session.start source symbols) = .ok t.values s ∧
        t = ⟨t.values, s.cursor.start, s.faults.reverse⟩ ∧ table = s.symbols := by
  unfold transcodeWith
  cases h : Setup.scan ⟨options, construct⟩ source (Session.start source symbols) with
  | ok values s =>
    constructor
    · intro he
      cases he
      exact ⟨s, rfl, rfl, rfl⟩
    · rintro ⟨s', he, ht, rfl⟩
      cases he
      exact congrArg (fun t => (Except.ok t, s.symbols)) ht.symm
  | error f s =>
    constructor
    · intro he
      cases he
    · rintro ⟨s', he, -⟩
      cases he

theorem transcodeWith_eq_error {construct : Constructor} {source : Bytes}
    {symbols table : SymbolTable} {options : Options} {failure : Failure} :
    transcodeWith construct source symbols options = (.error failure, table) ↔
      ∃ s, Setup.scan ⟨options, construct⟩ source (Session.start source symbols) =
          .error failure.fault s ∧ failure.count = s.faultCount ∧ table = s.symbols := by
  unfold transcodeWith
  cases h : Setup.scan ⟨options, construct⟩ source (Session.start source symbols) with
  | ok values s =>
    constructor
    · intro he
      cases he
    · rintro ⟨s', he, -⟩
      cases he
  | error f s =>
    constructor
    · intro he
      cases he
      exact ⟨s, rfl, rfl, rfl⟩
    · rintro ⟨s', he, hc, rfl⟩
      cases he
      exact congrArg (fun n => (Except.error (Failure.mk failure.fault n), s.symbols)) hc.symm

/-- Scans `source`. -/
def transcode (source : Bytes) (symbols : SymbolTable) (options : Options) :
    Except Failure Transcoded × SymbolTable :=
  transcodeWith Constructor.standard source symbols options

/-- The values of a whole source, read strictly. -/
def scanSource (source : Bytes) (symbols : SymbolTable) : Except Failure Block × SymbolTable :=
  let (result, symbols) := transcode source symbols .standard
  (result.map (·.values), symbols)

theorem scanSource_eq_ok {source : Bytes} {symbols table : SymbolTable} {body : Block} :
    scanSource source symbols = (.ok body, table) ↔
      ∃ s, Setup.scan ⟨.standard, .standard⟩ source (Session.start source symbols) = .ok body s ∧
        table = s.symbols := by
  unfold scanSource transcode transcodeWith
  cases Setup.scan ⟨.standard, .standard⟩ source (Session.start source symbols) with
  | ok values s =>
    constructor
    · intro h
      cases h
      exact ⟨s, rfl, rfl⟩
    · rintro ⟨s', h, rfl⟩
      cases h
      rfl
  | error f s =>
    constructor
    · intro h
      cases h
    · rintro ⟨s', h, -⟩
      cases h

/-! ## Single names -/

/-- The symbol of `source` if all of it is one plain word. -/
def scanWord (source : Bytes) (symbols : SymbolTable) : Option Symbol × SymbolTable :=
  let mark := byteOrderMarkLength source
  let (l, c) := (Cursor.afterMark source).scan
  if l.malformed || l.kind != .word || c.start != mark || c.stop != source.length then
    (none, symbols)
  else
    match Utf8.decode? c.bytes with
    | some name => let (s, symbols) := symbols.intern name; (some s, symbols)
    | none => (none, symbols)

/-- The symbol of `source` if it can name an issue; the pound sign is no part of it. -/
def scanIssue (source : Bytes) (symbols : SymbolTable) : Option Symbol × SymbolTable :=
  if !Literal.isIssueText source then (none, symbols)
  else
    match Utf8.decode? source with
    | some name => let (s, symbols) := symbols.intern name; (some s, symbols)
    | none => (none, symbols)

/-! ## Value by value -/

/-- One step of a scan that goes on where the one before stopped. -/
structure TranscodeStep where
  /-- where the text of this step starts in the whole -/
  offset : Nat
  result : Except Failure Transcoded
  symbols : SymbolTable

/-- Up to `fuel` steps from `offset`. A scan that fails, consumes nothing or yields no value is the
last, and so is one that reaches the end. -/
def transcodeSteps (source : Bytes) (options : Options) (fuel offset : Nat) (symbols : SymbolTable)
    (done : List TranscodeStep) : List TranscodeStep × Nat :=
  match fuel with
  | 0 => (done.reverse, offset)
  | fuel + 1 =>
    if source.length ≤ offset then (done.reverse, offset)
    else
      let (result, symbols) := transcode (source.drop offset) symbols options
      let done := ⟨offset, result, symbols⟩ :: done
      match result with
      | .error _ => (done.reverse, offset)
      | .ok t =>
        if t.consumed == 0 || t.values.items.isEmpty then (done.reverse, offset)
        else transcodeSteps source options fuel (offset + t.consumed) symbols done

/-- Scans `source` one value at a time, with one symbol table, for at most `limit` steps. -/
def transcodeLoop (source : Bytes) (options : Options) (limit : Nat) : List TranscodeStep × Nat :=
  transcodeSteps source { options with next := options.next || !options.only } limit 0
    SymbolTable.initial []

end RebolScan
