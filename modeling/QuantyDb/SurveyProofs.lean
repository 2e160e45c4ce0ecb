import QuantyDb.SqliteScanProofs
import QuantyDb.LayoutProofs

/-! # The schema and the surveys never fault

    A text of a record is not much longer than the record, and a record not
    longer than the file: so the statements of the schema fit the memory.  A
    table has no more rows than its file has cells: so the counters of a
    survey do not overflow. -/

namespace QuantySqlite

open QuantyPage Outcome PageWalk List Schema TableScan

theorem Reader.payloadLimit_le (r : Reader) : r.payloadLimit ≤ 2 ^ 48 := by
  have hpages := r.pages
  have hsmall := r.header.small
  calc r.payloadLimit ≤ 2 ^ 32 * 65536 := Nat.mul_le_mul hpages.le hsmall
    _ = 2 ^ 48 := by norm_num

/-! ## Answers of a scan -/

variable {fuel k root : Nat} {scan : TableScan} {o : SchemaObject}

section Loops

variable {O B : Type} {answers : List (Result O)}

/-- **A LOOP OVER ANSWERS** none of which is a fault.  The invariant counts the
    rounds. -/
theorem gives_foldAnswers {body : B → O → Result B} {I : Nat → B → Prop}
    (hbody : ∀ n acc o, .ok o ∈ answers → n < k → I n acc → Gives (body acc o) (I (n + 1)))
    (hfault : ∀ e, .error e ∈ answers → ¬ e.Fault) (n : Nat) (acc : B) (hinv : I n acc)
    (hk : n + answers.length ≤ k) :
    Gives (foldAnswers body answers acc) (fun acc' => ∃ m, I m acc') := by
  induction answers generalizing n acc with
  | nil => exact of_ok ⟨n, hinv⟩
  | cons x xs ih =>
      rw [length_cons] at hk
      cases x with
      | error e => exact hfault e (.head _)
      | ok o =>
          refine (hbody n acc o (.head _) (by omega) hinv).bind fun acc' hacc' => ?_
          refine ih (fun m acc o ho => hbody m acc o (.tail _ ho))
            (fun e he => hfault e (.tail _ he)) (n + 1) acc' hacc' (by omega)

end Loops

theorem Reader.rounds_lt (r : Reader) : r.rounds < 2 ^ 63 := by
  have hpages := r.pages
  rw [Reader.rounds]
  omega

/-- An error of the answers that are made of others was one of theirs. -/
theorem error_of_map {O O' : Type} {answers : List (Result O)} {f : O → O'} {e : Error}
    (h : .error e ∈ answers.map (Except.map f)) : .error e ∈ answers := by
  obtain ⟨x, hx, hmap⟩ := mem_map.mp h
  cases x with
  | ok o => nomatch hmap
  | error e' =>
      cases hmap
      exact hx

variable {r : Reader} {n : Nat} {s : ColumnSurvey}

/-- Rows are the answers of the scan below them. -/
theorem yields_rowid {answers : List (Result TableRow)}
    (h : Yields ((iter r).next .outOfFuel fuel) scan answers) :
    Yields (Rows.next r fuel) (.rowid scan)
      (answers.map (Except.map fun row => ⟨some row.rowid, row.values⟩)) :=
  h.map fun _ => rfl

theorem yields_keyed {scan : IndexScan} {answers : List (Result (List SqliteValue))}
    (h : Yields ((IndexScan.iter r).next .outOfFuel fuel) scan answers) :
    Yields (Rows.next r fuel) (.keyed scan)
      (answers.map (Except.map fun values => ⟨none, values⟩)) :=
  h.map fun _ => rfl

section Scans

variable {r : Reader} (hr : r.source.Sound)

include hr

/-- What there is to know of the answers of a scan that is run to its end. -/
theorem tableScan_answers (h : new r root = .ok scan) :
    ∃ answers, Yields ((iter r).next .outOfFuel r.rounds) scan answers
      ∧ answers.length ≤ r.rounds ∧ (∀ e, .error e ∈ answers → ¬ e.Fault)
      ∧ ∀ row, .ok row ∈ answers → TextsWithin (2 ^ 49) row.values := by
  obtain ⟨answers, hex, hlength, hyields, hcomes⟩ := scan_exhausts (tableScan_walks r)
    (tableGraph_ended r) (tableGraph_bounded r) h
  refine ⟨answers, hyields, hlength, ?_, ?_⟩
  · intro e he
    exact pageGraph_fails hr (safe_tableSlot hr) (fun _ _ => safe_rowOf _ _ _ _) (hex.fails e he)
  · intro row hrow
    obtain ⟨p, i, record, acc, acc', hslot, haccept⟩ := hcomes row hrow
    obtain ⟨page, -, hslot⟩ := bind_eq_ok.mp hslot
    have hpayload : record.payload.length ≤ r.payloadLimit := by
      rw [tableSlot] at hslot
      split at hslot
      · split at hslot
        · cases hslot
        · obtain ⟨cell, hcell, hslot⟩ := bind_eq_ok.mp hslot
          obtain ⟨⟨rowid, payload⟩, hleaf, hslot⟩ := bind_eq_ok.mp hslot
          cases hslot
          have hwithin := (gives_cell hr page i).ok hcell
          cases cell with
          | tableLeaf rowid' payload' =>
              cases hleaf
              exact hwithin payload rfl
          | tableInterior child rowid' => cases hleaf
          | indexInterior child payload' => cases hleaf
          | indexLeaf payload' => cases hleaf
      · split at hslot
        · obtain ⟨cell, -, hslot⟩ := bind_eq_ok.mp hslot
          obtain ⟨child, -, hslot⟩ := bind_eq_ok.mp hslot
          cases hslot
        · split at hslot
          · obtain ⟨child, -, hslot⟩ := bind_eq_ok.mp hslot
            cases hslot
          · cases hslot
    have hdecode := (rowOf_ok haccept).1.2
    have htexts := (gives_decodeRecord _ _).ok hdecode
    intro s hs
    have := htexts s hs
    have := r.payloadLimit_le
    omega

theorem indexScan_answers {scan : IndexScan} (h : IndexScan.new r root = .ok scan) :
    ∃ answers, Yields ((IndexScan.iter r).next .outOfFuel r.rounds) scan answers
      ∧ answers.length ≤ r.rounds ∧ ∀ e, .error e ∈ answers → ¬ e.Fault := by
  obtain ⟨answers, hex, hlength, hyields, -⟩ := scan_exhausts (indexScan_walks r)
    (indexGraph_ended r) (indexGraph_bounded r) h
  refine ⟨answers, hyields, hlength, fun e he => ?_⟩
  exact pageGraph_fails hr (safe_indexSlot hr)
    (fun _ payload => (safe_decodeRecord payload _).map fun _ _ => trivial) (hex.fails e he)

theorem safe_newScan {F A : Type} (k : Scan.Kind F A) (root : Nat) : Safe (Scan.new k r root) :=
  (gives_btreePage hr root).bind fun _ _ => (gives_refuse _ _).bind fun _ _ => of_pure trivial

/-- **ROWS** of either kind of table, to their end. -/
theorem gives_rows (root : Nat) :
    Gives (r.rows root) (fun rows => ∃ answers, Yields (Rows.next r r.rounds) rows answers
      ∧ answers.length ≤ r.rounds ∧ ∀ e, .error e ∈ answers → ¬ e.Fault) := by
  refine (gives_btreePage hr root).bind fun page _ => ?_
  refine of_ite (fun _ => ?_) fun _ => ?_
  · cases hscan : new r root with
    | error e => exact (safe_newScan hr kind root).error hscan
    | ok scan =>
        obtain ⟨answers, hyields, hlength, hfault, -⟩ := tableScan_answers hr hscan
        refine ⟨_, yields_rowid hyields, ?_, fun e he => hfault e (error_of_map he)⟩
        rw [length_map]
        exact hlength
  · cases hscan : IndexScan.new r root with
    | error e => exact (safe_newScan hr IndexScan.kind root).error hscan
    | ok scan =>
        obtain ⟨answers, hyields, hlength, hfault⟩ := indexScan_answers hr hscan
        refine ⟨_, yields_keyed hyields, ?_, fun e he => hfault e (error_of_map he)⟩
        rw [length_map]
        exact hlength

end Scans

/-! ## The schema -/

/-- An object whose statement is a text in memory. -/
def SchemaObject.InMemory (o : SchemaObject) : Prop :=
  ∀ sql, o.sql = some sql → sql.utf8ByteSize < 2 ^ 63

theorem safe_kind (shows : Shows) (value : SqliteValue) : Safe (kindOf shows value) := by
  unfold kindOf
  split
  · unfold ObjectKind.parse
    refine of_ite (fun _ => of_ok trivial) fun _ => ?_
    refine of_ite (fun _ => of_ok trivial) fun _ => ?_
    refine of_ite (fun _ => of_ok trivial) fun _ => ?_
    exact of_ite (fun _ => of_ok trivial) fun _ => of_error id
  · exact of_error id

theorem safe_textColumn (value : SqliteValue) (column : String) :
    Safe (textColumn value column) := by
  unfold textColumn
  split
  · exact of_ok trivial
  · exact of_error id

theorem safe_rootPageOf (shows : Shows) (name : String) (pageCount : Nat) (value : SqliteValue) :
    Safe (rootPageOf shows name pageCount value) := by
  unfold rootPageOf
  dsimp only
  split
  · exact of_ok trivial
  · refine of_ite (fun _ => of_ok trivial) fun _ => ?_
    exact of_ite (fun _ => of_ok trivial) fun _ => of_error id
  · exact of_error id

theorem gives_sqlOf (name : String) (value : SqliteValue) :
    Gives (sqlOf name value) (fun sql => ∀ s, sql = some s → value = .text s) := by
  unfold sqlOf
  split
  · exact of_ok nofun
  · refine of_ok fun s hs => ?_
    cases hs
    rfl
  · exact of_error id

theorem gives_fromRow (shows : Shows) (pageCount : Nat) {values : List SqliteValue}
    (h : TextsWithin (2 ^ 49) values) :
    Gives (fromRow shows pageCount values) SchemaObject.InMemory := by
  refine (gives_refuse _ _).bind fun _ hfive => ?_
  rw [not_not] at hfive
  refine (gives_nth (by omega)).bind fun _ _ => ?_
  refine (safe_kind shows _).bind fun _ _ => ?_
  refine (gives_nth (by omega)).bind fun _ _ => ?_
  refine (safe_textColumn _ _).bind fun name _ => ?_
  refine (gives_nth (by omega)).bind fun _ _ => ?_
  refine (safe_textColumn _ _).bind fun _ _ => ?_
  refine (gives_nth (by omega)).bind fun _ _ => ?_
  refine (safe_rootPageOf shows _ _ _).bind fun _ _ => ?_
  refine (gives_refuse _ _).bind fun _ _ => ?_
  refine (gives_nth (by omega)).bind fun value hvalue => ?_
  refine (gives_sqlOf name value).bind fun sql hsql => ?_
  refine of_pure fun s hs => ?_
  have := h s (hsql s hs ▸ mem_of_getElem? hvalue)
  omega

theorem gives_fromRows (shows : Shows) (pageCount : Nat) (rows : List (List SqliteValue))
    (h : ∀ values ∈ rows, TextsWithin (2 ^ 49) values) :
    Gives (fromRows shows pageCount rows) (fun objects => ∀ o ∈ objects, o.InMemory) := by
  induction rows with
  | nil => exact of_ok nofun
  | cons values rows ih =>
      obtain ⟨hvalues, hrows⟩ := forall_mem_cons.mp h
      refine (gives_fromRow shows pageCount hvalues).bind fun object hobject => ?_
      refine (ih hrows).bind fun objects hobjects => ?_
      exact of_pure (forall_mem_cons.mpr ⟨hobject, hobjects⟩)

/-- **THE SCHEMA** of any file, with statements that fit the memory. -/
theorem gives_schema (hr : r.source.Sound) (shows : Shows) :
    Gives (r.schema shows) (fun s => ∀ o ∈ s.objects, o.InMemory) := by
  rw [Reader.schema]
  cases hscan : new r 1 with
  | error e => exact (safe_newScan hr kind 1).error hscan
  | ok scan =>
      obtain ⟨answers, hyields, hlength, hfault, htexts⟩ := tableScan_answers hr hscan
      rw [ok_bind, forEach_eq _ hyields (Nat.lt_succ_of_le hlength)]
      refine (gives_foldAnswers (I := fun _ rows => ∀ values ∈ rows, TextsWithin (2 ^ 49) values)
        (k := answers.length) ?_ hfault 0 [] nofun (by omega)).bind ?_
      · intro n rows row hrow _ hinv
        refine of_ok fun values hvalues => ?_
        rcases mem_append.mp hvalues with hvalues | hvalues
        · exact hinv values hvalues
        · cases mem_singleton.mp hvalues
          exact htexts row hrow
      · rintro rows ⟨-, hrows⟩
        exact (gives_fromRows shows r.pageCount rows hrows).bind fun objects hobjects =>
          of_pure hobjects

theorem gives_tableDef (shows : Shows) (h : o.InMemory) :
    Gives (o.tableDef shows) (fun d => d.columns.length < 2 ^ 63) := by
  unfold SchemaObject.tableDef
  refine of_ite (fun _ => of_error id) fun _ => ?_
  split
  · next sql hsql => exact Ddl.gives_parseCreateTable shows.text (h sql hsql)
  · exact of_error id

/-! ## Layouts -/

/-- **ANY TABLE** has a layout. -/
theorem RowLayout.safe_new {d : TableDef} (h : d.columns.length < 2 ^ 63) : Safe (new d) := by
  rw [new_eq h]
  exact of_ok trivial

/-! ## Surveys -/

/-- No counter of a column is above a number. -/
structure ColumnSurvey.Below (n : Nat) (s : ColumnSurvey) : Prop where
  nulls : s.nulls ≤ n
  integers : s.integers ≤ n
  reals : s.reals ≤ n
  texts : s.texts ≤ n
  blobs : s.blobs ≤ n
  missing : s.missing ≤ n

theorem ColumnSurvey.Below.mono {m : Nat} (h : s.Below n) (hnm : n ≤ m) : s.Below m where
  nulls := h.nulls.trans hnm
  integers := h.integers.trans hnm
  reals := h.reals.trans hnm
  texts := h.texts.trans hnm
  blobs := h.blobs.trans hnm
  missing := h.missing.trans hnm

namespace ColumnSurvey

/-- One counter goes up by one. -/
theorem gives_bump (hn : n < 2 ^ 63) (hk : k ≤ n) : Gives (plus k 1) (fun k' => k' ≤ n + 1) := by
  refine (gives_plus (by omega)).imp ?_
  rintro _ rfl
  omega

theorem gives_count (hn : n < 2 ^ 63) (h : s.Below n) (c : StorageClass) :
    Gives (s.count c) (Below (n + 1)) := by
  have h' := h.mono (Nat.le_succ n)
  cases c with
  | null => exact (gives_bump hn h.nulls).bind fun _ hk => of_pure { h' with nulls := hk }
  | integer => exact (gives_bump hn h.integers).bind fun _ hk => of_pure { h' with integers := hk }
  | real => exact (gives_bump hn h.reals).bind fun _ hk => of_pure { h' with reals := hk }
  | text => exact (gives_bump hn h.texts).bind fun _ hk => of_pure { h' with texts := hk }
  | blob => exact (gives_bump hn h.blobs).bind fun _ hk => of_pure { h' with blobs := hk }

/-- **A CELL** counts at most once. -/
theorem gives_add (hn : n < 2 ^ 63) (h : s.Below n) (cell : MappedCell) :
    Gives (s.add cell) (Below (n + 1)) := by
  have h' := h.mono (Nat.le_succ n)
  cases cell with
  | virtual => exact of_ok h'
  | missing => exact (gives_bump hn h.missing).bind fun _ hk => of_pure { h' with missing := hk }
  | rowid rowid =>
      exact (gives_bump hn h.integers).bind fun _ hk => of_pure { h' with integers := hk }
  | value v =>
      have hnoted : ({ s with
          largestInteger := max s.largestInteger (magnitude v)
          longestValue := max s.longestValue (lengthOf v) } : ColumnSurvey).Below n :=
        ⟨h.nulls, h.integers, h.reals, h.texts, h.blobs, h.missing⟩
      exact gives_count hn hnoted _

theorem gives_addRow (hn : n < 2 ^ 63) (layout : RowLayout) (row : Row)
    (columns : List ColumnSurvey) (i : Nat) (h : ∀ s ∈ columns, s.Below n) :
    Gives (addRow layout row columns i) (fun l => ∀ s ∈ l, s.Below (n + 1)) := by
  induction columns generalizing i with
  | nil => exact of_ok nofun
  | cons s columns ih =>
      obtain ⟨hs, hcolumns⟩ := forall_mem_cons.mp h
      refine (gives_add hn hs _).bind fun s' hs' => ?_
      refine (ih (i + 1) hcolumns).bind fun columns' hcolumns' => ?_
      exact of_pure (forall_mem_cons.mpr ⟨hs', hcolumns'⟩)

end ColumnSurvey

/-- A tally of so many rows. -/
def Tally.Below (n : Nat) (t : Tally) : Prop := t.rows ≤ n ∧ ∀ s ∈ t.columns, s.Below n

theorem gives_tallyRow (hn : n < 2 ^ 63) (layout : RowLayout) {t : Tally} (h : t.Below n)
    (row : Row) : Gives (t.row layout row) (Tally.Below (n + 1)) := by
  refine (ColumnSurvey.gives_bump hn h.1).bind fun rows hrows => ?_
  refine (ColumnSurvey.gives_addRow hn layout row t.columns 0 h.2).bind fun columns hcolumns => ?_
  exact of_pure ⟨hrows, hcolumns⟩

/-- **A SURVEY** of any table of any file. -/
theorem safe_surveyTable (hr : r.source.Sound) (shows : Shows) (h : o.InMemory) :
    Safe (r.surveyTable shows o) := by
  have hrounds := r.rounds_lt
  refine (gives_tableDef shows h).bind fun d hd => ?_
  refine (RowLayout.safe_new hd).bind fun layout _ => ?_
  rw [RowLayout.rowidAlias_eq, ok_bind]
  split
  · exact of_throw id
  · next root _ =>
    refine (gives_rows hr root).bind ?_
    rintro rows ⟨answers, hyields, hlength, hfault⟩
    rw [forEach_eq _ hyields (Nat.lt_succ_of_le hlength)]
    refine (gives_foldAnswers (I := Tally.Below) (k := answers.length) ?_ hfault 0 _ ?_
      (by omega)).bind fun _ _ => of_pure trivial
    · intro n t row _ hn ht
      exact gives_tallyRow (by omega) layout ht row
    · refine ⟨le_rfl, fun s hs => ?_⟩
      obtain ⟨c, -, rfl⟩ := mem_map.mp hs
      exact ⟨le_rfl, le_rfl, le_rfl, le_rfl, le_rfl, le_rfl⟩

end QuantySqlite
