import RebolScan.Proofs.Scan.Interned

/-!
# Histories of a table

A table of symbols outlives the scans that use it: it is asked for symbols and for names between
them, and a scan may end halfway. `Played t log u` is such a history, from `t` to `u`, with what each
call interned and what it answered.

A call leaves a table in which it interned some names (`Call.exists_plays`), so a history does, and
**after any history the table is lawful** (`histories_lawful`), with regard to all that was interned
since the beginning.
-/

set_option autoImplicit false

namespace RebolScan

open Finder

/-- One use of a table. -/
inductive Call
  | intern (name : String)
  | get (name : String)
  | lookup (s : Symbol)
  | scanWord (source : Bytes)
  | scanIssue (source : Bytes)
  | transcode (source : Bytes) (options : Options)

/-- What a call answers. -/
inductive Reply
  | symbol (s : Symbol)
  | found (s? : Option Symbol)
  | name (name : String)
  | scanned (result : Except Failure Transcoded)

/-- The answer to a call, and the table after it. -/
def Call.run : Call → SymbolTable → Reply × SymbolTable
  | .intern name, t => (.symbol (t.intern name).1, (t.intern name).2)
  | .get name, t => (.found (t.get? name), t)
  | .lookup s, t => (.name (t.lookup s), t)
  | .scanWord source, t => (.found (RebolScan.scanWord source t).1, (RebolScan.scanWord source t).2)
  | .scanIssue source, t =>
    (.found (RebolScan.scanIssue source t).1, (RebolScan.scanIssue source t).2)
  | .transcode source options, t =>
    (.scanned (RebolScan.transcode source t options).1, (RebolScan.transcode source t options).2)

/-- The table after some calls. -/
def SymbolTable.after (t : SymbolTable) (calls : List Call) : SymbolTable :=
  calls.foldl (fun t call => (call.run t).2) t

/-- What the answer to a call has to do with the names that the call interned. -/
inductive Call.Answers : Call → List Naming → Reply → Prop
  | intern (name : String) (s : Symbol) : Answers (.intern name) [⟨name, s⟩] (.symbol s)
  | get (name : String) (s? : Option Symbol) : Answers (.get name) [] (.found s?)
  | lookup (s : Symbol) (name : String) : Answers (.lookup s) [] (.name name)
  | word {source : Bytes} {name : String} (s : Symbol)
      (h : Utf8.decode? (source.drop (byteOrderMarkLength source)) = some name) :
      Answers (.scanWord source) [⟨name, s⟩] (.found (some s))
  | noWord (source : Bytes) : Answers (.scanWord source) [] (.found none)
  | issue {source : Bytes} {name : String} (s : Symbol) (h : Utf8.decode? source = some name) :
      Answers (.scanIssue source) [⟨name, s⟩] (.found (some s))
  | noIssue (source : Bytes) : Answers (.scanIssue source) [] (.found none)
  | scanned (source : Bytes) (options : Options) {names : List Naming}
      {result : Except Failure Transcoded}
      (h : ∀ t, result = .ok t →
        ∀ a ∈ symbols.items t.values.items, a ∈ names.map Naming.symbol) :
      Answers (.transcode source options) names (.scanned result)

/-- A call with the names that it interned and its answer. -/
structure Exchange where
  call : Call
  names : List Naming
  reply : Reply

/-- The exchange takes place in `t` and leaves `u`. -/
structure Exchange.Plays (e : Exchange) (t u : SymbolTable) : Prop where
  run : e.call.run t = (e.reply, u)
  interns : t.Interns e.names u
  answers : e.call.Answers e.names e.reply

/-- The exchanges of `log` take place one after the other, from `t` to `u`. -/
inductive Played : SymbolTable → List Exchange → SymbolTable → Prop
  | nil (t : SymbolTable) : Played t [] t
  | cons {t u v : SymbolTable} {e : Exchange} {log : List Exchange} (he : e.Plays t u)
      (h : Played u log v) : Played t (e :: log) v

section

variable {t u v : SymbolTable} {log more : List Exchange}

/-- A call whose answer and table are known makes an exchange. -/
theorem Call.plays {call : Call} {names : List Naming} {reply : Reply}
    (hrun : call.run t = (reply, u)) (hnames : t.Interns names u)
    (hanswers : call.Answers names reply) :
    ∃ e : Exchange, e.call = call ∧ e.Plays t (call.run t).2 := by
  refine ⟨⟨call, names, reply⟩, rfl, ?_⟩
  rw [hrun]
  exact ⟨hrun, hnames, hanswers⟩

/-- **Whatever is called, the table that it leaves is the old one with some names interned.** -/
theorem Call.exists_plays (call : Call) (t : SymbolTable) :
    ∃ e : Exchange, e.call = call ∧ e.Plays t (call.run t).2 := by
  cases call with
  | intern name => exact plays rfl (SymbolTable.interns_one t name) (.intern name _)
  | get name => exact plays rfl (.nil t) (.get name _)
  | lookup s => exact plays rfl (.nil t) (.lookup s _)
  | scanWord source =>
    rcases scanWord_interns source t with h | ⟨name, hname, h⟩
    · exact plays (by rw [run, h]) (.nil t) (.noWord source)
    · exact plays (by rw [run, h]) (SymbolTable.interns_one t name) (.word _ hname)
  | scanIssue source =>
    rcases scanIssue_interns source t with h | ⟨name, hname, h⟩
    · exact plays (by rw [run, h]) (.nil t) (.noIssue source)
    · exact plays (by rw [run, h]) (SymbolTable.interns_one t name) (.issue _ hname)
  | transcode source options =>
    obtain ⟨names, hnames, hgiven⟩ :=
      transcodeWith_interns (Constructor.frugal_standard findsWords_symbols) source t options
    exact plays rfl hnames (.scanned source options hgiven)

theorem exists_played (calls : List Call) (t : SymbolTable) :
    ∃ log, Played t log (t.after calls) ∧ log.map Exchange.call = calls := by
  induction calls generalizing t with
  | nil => exact ⟨[], .nil t, rfl⟩
  | cons call calls ih =>
    obtain ⟨e, he, hplays⟩ := call.exists_plays t
    obtain ⟨log, hlog, hcalls⟩ := ih (call.run t).2
    refine ⟨e :: log, .cons hplays hlog, ?_⟩
    rw [List.map_cons, he, hcalls]

/-- A history has interned what its calls have. -/
theorem Played.interns (h : Played t log u) : t.Interns (log.flatMap Exchange.names) u := by
  induction h with
  | nil t => exact .nil t
  | cons he _ ih =>
    rw [List.flatMap_cons]
    exact he.interns.append ih

theorem Played.append (htu : Played t log u) (huv : Played u more v) : Played t (log ++ more) v := by
  induction htu with
  | nil => exact huv
  | cons he _ ih => exact .cons he (ih huv)

theorem Played.answers (h : Played t log u) : ∀ e ∈ log, e.call.Answers e.names e.reply := by
  induction h with
  | nil =>
    intro e he
    cases he
  | cons he _ ih =>
    intro e hmem
    rcases List.mem_cons.1 hmem with rfl | hmem
    · exact he.answers
    · exact ih e hmem

/-- What a call to intern answers is a symbol given to its name. -/
theorem Played.mem_of_intern (h : Played t log u) {e : Exchange} (he : e ∈ log) {name : String}
    {s : Symbol} (hcall : e.call = .intern name) (hreply : e.reply = .symbol s) :
    ⟨name, s⟩ ∈ log.flatMap Exchange.names := by
  obtain ⟨call, names, reply⟩ := e
  have hanswers := h.answers _ he
  cases hcall
  cases hreply
  cases hanswers
  exact List.mem_flatMap.2 ⟨_, he, List.mem_singleton_self _⟩

end

/-- **After any history of calls the table is lawful, and stays so.** There is a record of what the
calls interned, with what they answered; the laws of `Lawful` hold of everything in it, in the table
that the calls leave and in every later one. Names that are interned get equal symbols if they are
equal, and different ones if they are not. -/
theorem histories_lawful (calls : List Call) :
    ∃ log, Played .initial log (SymbolTable.initial.after calls) ∧ log.map Exchange.call = calls ∧
      (SymbolTable.initial.after calls).Lawful (log.flatMap Exchange.names) ∧
      (∀ d ∈ log, ∀ e ∈ log, ∀ name name' s s', d.call = .intern name → e.call = .intern name' →
        d.reply = .symbol s → e.reply = .symbol s' → (name = name' ↔ s = s')) ∧
      ∀ more : List Call, ∃ log',
        Played (SymbolTable.initial.after calls) log' ((SymbolTable.initial.after calls).after more) ∧
        log'.map Exchange.call = more ∧
        ((SymbolTable.initial.after calls).after more).Lawful
          ((log ++ log').flatMap Exchange.names) := by
  obtain ⟨log, hlog, hcalls⟩ := exists_played calls .initial
  have hlawful := hlog.interns.lawful
  refine ⟨log, hlog, hcalls, hlawful, ?_, fun more => ?_⟩
  · intro d hd e he name name' s s' hdcall hecall hdreply hereply
    exact hlawful.distinct _ (hlog.mem_of_intern hd hdcall hdreply) _
      (hlog.mem_of_intern he hecall hereply)
  · obtain ⟨log', hlog', hmore⟩ := exists_played more (SymbolTable.initial.after calls)
    exact ⟨log', hlog', hmore, (hlog.append hlog').interns.lawful⟩

/-- The scan of `[a` fails, and has interned the word all the same. -/
example : let t := SymbolTable.initial.after [.transcode [0x5B, 0x61] .standard, .intern "a"]
    t.Roomy ∧ t.size = 2 := by decide +kernel

end RebolScan
