import QuantyDb.SurveyProofs

/-! # The SQLite reader never panics

    Whatever the bytes of a database and of its log are, opening it and every
    call on what was opened returns.  The log is a source like any other: the
    positions it is read at fit 64 bits, since there are fewer than 2^32
    frames of at most 2^31 bytes and a header. -/

namespace QuantySqlite

open QuantyPage Outcome PageWalk List WalSource

/-! ## The log -/

theorem safe_bigEndianOf (magic : Nat) : Safe (bigEndianOf magic) := by
  unfold bigEndianOf
  refine of_ite (fun _ => of_ok trivial) fun _ => ?_
  exact of_ite (fun _ => of_ok trivial) fun _ => of_error id

theorem safe_parseLogHeader {header : Bytes} (h : header.length = WAL_HEADER_LEN) :
    Safe (LogHeader.parse header) := by
  rw [WAL_HEADER_LEN] at h
  refine (gives_be32 (by omega)).bind fun magic _ => ?_
  refine (safe_bigEndianOf magic.val).bind fun bigEndian _ => ?_
  refine (gives_between (by omega) (by omega)).bind fun _ _ => ?_
  refine (gives_be32 (by omega)).bind fun _ _ => ?_
  refine (gives_be32 (by omega)).bind fun _ _ => ?_
  refine (gives_refuse _ _).bind fun _ _ => ?_
  refine (gives_be32 (by omega)).bind fun _ _ => ?_
  refine (gives_refuse_unsupported _).bind fun _ _ => ?_
  refine (gives_be32 (by omega)).bind fun _ _ => ?_
  refine (gives_refuse _ _).bind fun _ _ => ?_
  refine (gives_be32 (by omega)).bind fun _ _ => ?_
  refine (gives_be32 (by omega)).bind fun _ _ => ?_
  exact of_pure trivial

/-- A page that starts at a position of the log ends at one of 64 bits. -/
def Placed64 (pageSize : Nat) (pages : List (Nat × Nat)) : Prop :=
  ∀ e ∈ pages, e.2 + pageSize < 2 ^ 64

theorem placed64_push {pageSize offset : Nat} {st : LogState} (hpages : Placed64 pageSize st.pages)
    (hpending : Placed64 pageSize st.pending)
    (hoffset : offset + pageSize < 2 ^ 64) (index number afterCommit : Nat) (running : Nat × Nat) :
    Placed64 pageSize (st.push index number afterCommit offset running).pages
      ∧ Placed64 pageSize (st.push index number afterCommit offset running).pending := by
  have hall : Placed64 pageSize (st.pending ++ [(number, offset)]) := by
    intro e he
    rcases mem_append.mp he with he | he
    · exact hpending e he
    · cases mem_singleton.mp he
      exact hoffset
  rw [LogState.push]
  split
  · refine ⟨fun e he => ?_, nofun⟩
    rcases mem_append.mp he with he | he
    · exact hall e (mem_reverse.mp he)
    · exact hpages e he
  · exact ⟨hpages, hall⟩

section Log

variable {source : Source} (hs : source.Sound)

include hs

/-- **THE FRAMES** of any log. -/
theorem gives_openLoop (h : LogHeader) (left index : Nat) (st : LogState)
    (hcount : index + left < 2 ^ 32) (hpages : Placed64 h.pageSize st.pages)
    (hpending : Placed64 h.pageSize st.pending) :
    Gives (openLoop source h left index st) (fun st => Placed64 h.pageSize st.pages) := by
  induction left generalizing index st with
  | zero => exact of_ok hpages
  | succ left ih =>
      have hsmall := h.small
      have hskip : index * (FRAME_HEADER_LEN + h.pageSize) ≤ (2 ^ 32 - 2) * (24 + 2 ^ 31) :=
        Nat.mul_le_mul (by omega) (Nat.add_le_add_left hsmall 24)
      rw [openLoop, WAL_HEADER_LEN]
      refine (gives_times (by omega)).bind ?_
      rintro _ rfl
      refine of_plus (by omega) ?_
      rw [FRAME_HEADER_LEN] at hskip ⊢
      refine (hs.readAt _ _ (by omega)).bind fun frame _ => ?_
      have hframe := frame.property
      refine (gives_be32 (by omega)).bind fun number _ => ?_
      refine (gives_be32 (by omega)).bind fun afterCommit _ => ?_
      refine (gives_be32 (by omega)).bind fun _ _ => ?_
      refine (gives_be32 (by omega)).bind fun _ _ => ?_
      refine of_ite (fun _ => of_pure hpages) fun _ => ?_
      refine of_plus (by omega) ?_
      refine (hs.readAt _ _ (by omega)).bind fun page _ => ?_
      refine (gives_between (by omega) (by omega)).bind fun _ _ => ?_
      refine (gives_be32 (by omega)).bind fun _ _ => ?_
      refine (gives_be32 (by omega)).bind fun _ _ => ?_
      refine of_ite (fun _ => of_pure hpages) fun _ => ?_
      refine (gives_refuse _ _).bind fun _ _ => ?_
      obtain ⟨hpages', hpending'⟩ := placed64_push hpages hpending
        (show 32 + index * (24 + h.pageSize) + 24 + h.pageSize < 2 ^ 64 by omega) index number.val
        afterCommit.val _
      exact ih (index + 1) _ (by omega) hpages' hpending'

/-- **ANY LOG** opens or is refused. -/
theorem gives_openLog :
    Gives (Wal.open source) (fun w => w.source = source ∧ Placed64 w.pageSize w.pages) := by
  refine hs.len.bind fun len _ => ?_
  refine of_ite (fun _ => of_pure ⟨rfl, nofun⟩) fun hlen => ?_
  refine (hs.readAt _ _ (by decide)).bind fun header _ => ?_
  refine (safe_parseLogHeader header.property).bind fun h _ => ?_
  refine (gives_minus (by omega)).bind fun body _ => ?_
  have hempty : Placed64 h.pageSize [] := nofun
  refine (gives_openLoop hs h _ 0 ⟨h.running, [], [], 0, 0⟩ ?_ hempty hempty).bind fun st hst => ?_
  · rw [U32_MAX]
    omega
  · exact of_pure ⟨rfl, fun e he => hst e (mem_filter.mp he).1⟩

end Log

section Reading

variable {main : Source} (hmain : main.Sound) {log : Wal} (hlog : log.source.Sound)
  (hplaced : Placed64 log.pageSize log.pages)

include hmain hlog hplaced

theorem safe_readPart {page within offset count : Nat} (hwithin : within + count < 2 ^ 64)
    (h : offset + count < 2 ^ 64) : Safe (readPart main log page within offset count) := by
  have hserved : Safe (log.readPagePart page within count) := by
    rw [Wal.readPagePart]
    split
    · exact of_ok trivial
    · next data hdata =>
      have hend : data + log.pageSize < 2 ^ 64 := by
        obtain ⟨l₁, l₂, hpages, -⟩ := lookup_eq_some_iff.mp hdata
        exact hplaced (page, data) (by rw [hpages]; simp)
      refine (gives_plus hwithin).bind ?_
      rintro _ rfl
      refine (gives_refuse _ _).bind fun _ hfits => ?_
      refine of_plus (by omega) ?_
      exact (hlog.readAt _ _ (by omega)).bind fun _ _ => of_pure trivial
  rw [readPart]
  refine of_ite (fun _ => hserved.bind fun served _ => ?_) fun _ => hmain.readAt offset count h
  cases served with
  | some part => exact of_pure trivial
  | none => exact hmain.readAt offset count h

/-- **A READ OVER PAGES** ends: every part has a byte. -/
theorem safe_readLoop {pageSize : Nat} (hsize : 0 < pageSize) (offset fuel done left : Nat)
    (hfuel : left ≤ fuel) (h : offset + done + left < 2 ^ 64) :
    Safe (readLoop main log pageSize offset fuel done left) := by
  induction fuel generalizing done left with
  | zero =>
      obtain rfl : left = 0 := Nat.le_zero.mp hfuel
      exact of_ok trivial
  | succ fuel ih =>
      cases left with
      | zero => exact of_ok trivial
      | succ left =>
          have hmod := Nat.mod_lt (offset + done) hsize
          have hle := Nat.mod_le (offset + done) pageSize
          rw [readLoop]
          refine of_plus (by omega) ?_
          refine (gives_minus hmod.le).bind ?_
          rintro _ rfl
          refine (safe_readPart hmain hlog hplaced (by omega) (by omega)).bind fun part _ => ?_
          refine (ih _ _ (by omega) (by omega)).bind fun rest _ => ?_
          exact of_pure trivial

end Reading

/-- **A DATABASE WITH ITS LOG** is a source. -/
theorem gives_walSource {main : Source} (hmain : main.Sound) (log : Option Source)
    (hlog : ∀ s, log = some s → s.Sound) :
    Gives (new main log) (fun ws => ws.toSource.Sound) := by
  refine hmain.len.bind fun len _ => ?_
  refine (gives_refuse_notSqlite _).bind fun _ _ => ?_
  refine (hmain.readAt 0 HEADER_LEN (by decide)).bind fun bytes _ => ?_
  refine (safe_parseHeader _).bind fun header _ => ?_
  have huse : Gives (useLog header.pageSize log)
      (fun used => ∀ w, used = some w → w.source.Sound ∧ Placed64 w.pageSize w.pages) := by
    rw [useLog.eq_def]
    split
    · exact of_ok nofun
    · next source =>
      refine (gives_openLog (hlog source rfl)).bind fun wal hwal => ?_
      refine (gives_refuse _ _).bind fun _ _ => ?_
      refine of_pure fun w hw => ?_
      split at hw
      · nomatch hw
      · cases hw
        exact ⟨hwal.1.symm ▸ hlog source rfl, hwal.2⟩
  refine huse.bind fun used hused => ?_
  split
  · next wal =>
    obtain ⟨hsource, hplaced⟩ := hused wal rfl
    refine of_pure ⟨of_ok trivial, fun offset count h => ?_⟩
    exact safe_readLoop hmain hsource hplaced header.pageSize_pos offset count 0 count le_rfl
      (by omega)
  · refine hmain.len.bind fun len _ => ?_
    exact of_pure ⟨hmain.len, hmain.readAt⟩

/-! ## Calls -/

/-- The ways to open bytes: alone, or with what may be beside them. -/
inductive Opening
  | plain (bytes : Bytes)
  | withLog (bytes : Bytes) (log : Option Bytes)

def Opening.run : Opening → Result Reader
  | .plain bytes => Reader.open (sliceSource bytes)
  | .withLog bytes log => do
      let source ← new (sliceSource bytes) (log.map sliceSource)
      Reader.open source.toSource

/-- A call on an open reader.  An object is one whose statement is in memory;
    those of the schema are. -/
inductive Call
  | schema
  | tableDef (o : SchemaObject) (h : o.InMemory)
  | rows (root : Nat)
  | surveyTable (o : SchemaObject) (h : o.InMemory)
  | decodeRecord (payload : Bytes)

inductive Answer
  | schema (s : Schema)
  | tableDef (d : TableDef)
  | rows (items : List (Result Row))
  | surveyTable (t : TableSurvey)
  | decodeRecord (values : List SqliteValue)

/-- A call; rows are asked for to their end. -/
def Call.run (shows : Shows) (r : Reader) : Call → Result Answer
  | .schema => do return .schema (← r.schema shows)
  | .tableDef o _ => do return .tableDef (← o.tableDef shows)
  | .rows root => do
      let rows ← r.rows root
      return .rows (← exhaust .outOfFuel (Rows.next r r.rounds) (r.rounds + 1) rows)
  | .surveyTable o _ => do return .surveyTable (← r.surveyTable shows o)
  | .decodeRecord payload => do
      return .decodeRecord (← QuantySqlite.decodeRecord payload r.header.textEncoding)

/-- No part of an answer is a fault, and its objects can be asked about. -/
def Answer.Fine : Answer → Prop
  | .schema s => ∀ o ∈ s.objects, o.InMemory
  | .rows items => ∀ e, .error e ∈ items → ¬ e.Fault
  | _ => True

/-- A reader on a sound source. -/
theorem gives_opening (opening : Opening) : Gives opening.run (fun r => r.source.Sound) := by
  cases opening with
  | plain bytes =>
      refine (gives_open (sound_sliceSource bytes)).imp fun r hr => ?_
      exact hr.symm ▸ sound_sliceSource bytes
  | withLog bytes log =>
      have hlog : ∀ s, log.map sliceSource = some s → s.Sound := by
        intro s hs
        obtain ⟨bytes, -, rfl⟩ := Option.map_eq_some_iff.mp hs
        exact sound_sliceSource bytes
      refine (gives_walSource (sound_sliceSource bytes) _ hlog).bind fun source hsource => ?_
      refine (gives_open hsource).imp fun r hr => ?_
      exact hr.symm ▸ hsource

theorem gives_call {r : Reader} (hr : r.source.Sound) (shows : Shows) (call : Call) :
    Gives (call.run shows r) Answer.Fine := by
  cases call with
  | schema => exact (gives_schema hr shows).bind fun s hs => of_pure hs
  | tableDef o h => exact (gives_tableDef shows h).bind fun _ _ => of_pure trivial
  | rows root =>
      refine (gives_rows hr root).bind ?_
      rintro rows ⟨answers, hyields, hlength, hfault⟩
      rw [exhaust_eq hyields (Nat.lt_succ_of_le hlength)]
      exact of_pure hfault
  | surveyTable o h => exact (safe_surveyTable hr shows h).bind fun _ _ => of_pure trivial
  | decodeRecord payload => exact (safe_decodeRecord payload _).bind fun _ _ => of_pure trivial

/-- **THE READER NEVER PANICS**.  Whatever bytes are opened, alone or with any
    bytes as their log, opening returns, and so does every call on the reader,
    which no call changes: with a value or an error, and never with a fault,
    which stands for an index out of bounds, a number out of range, a
    failed `expect` and a loop that does not end.  The statements in a schema
    fit the memory, so the objects of any schema can be asked about. -/
theorem reader_never_panics (shows : Shows) (opening : Opening) :
    Safe opening.run ∧
    ∀ r, opening.run = .ok r → ∀ call : Call,
      (∀ e, call.run shows r = .error e → ¬ e.Fault) ∧
      ∀ answer, call.run shows r = .ok answer → answer.Fine := by
  refine ⟨.of (gives_opening opening), ?_⟩
  intro r hr call
  have hcall := gives_call ((gives_opening opening).ok hr) shows call
  exact ⟨fun e he => hcall.error he, fun answer ha => hcall.ok ha⟩

/-- How many rows an answer has. -/
def Answer.count : Answer → Nat
  | .rows items => items.length
  | _ => 0

/-- A table of four rows, and a page of bytes that are no tree. -/
theorem twoTrees_asked : (do
      let r ← Opening.run (.plain twoTrees)
      let answer ← Call.run ⟨id, fun _ => ""⟩ r (.rows 2)
      return (answer.count, (Call.run ⟨id, fun _ => ""⟩ r (.rows 5)).isOk))
    = .ok (4, false) := by
  decide +kernel

/-- The rows come without a fault, and so does the refusal. -/
theorem reader_never_panics_two_trees : ∃ r, Opening.run (.plain twoTrees) = .ok r ∧
    (∃ answer, Call.run ⟨id, fun _ => ""⟩ r (.rows 2) = .ok answer ∧ answer.count = 4
      ∧ answer.Fine) ∧
    ∃ e, Call.run ⟨id, fun _ => ""⟩ r (.rows 5) = .error e ∧ ¬ e.Fault := by
  obtain ⟨r, hopen, hrest⟩ := bind_eq_ok.mp twoTrees_asked
  obtain ⟨answer, hanswer, hrest⟩ := bind_eq_ok.mp hrest
  obtain ⟨hcount, hrefused⟩ := Prod.mk.inj (Except.ok.inj hrest)
  have hcalls := (reader_never_panics ⟨id, fun _ => ""⟩ (.plain twoTrees)).2 r hopen
  refine ⟨r, hopen, ⟨answer, hanswer, hcount, (hcalls (.rows 2)).2 answer hanswer⟩, ?_⟩
  cases hbad : Call.run ⟨id, fun _ => ""⟩ r (.rows 5) with
  | error e => exact ⟨e, rfl, (hcalls (.rows 5)).1 e hbad⟩
  | ok answer =>
      rw [hbad] at hrefused
      nomatch hrefused

end QuantySqlite
