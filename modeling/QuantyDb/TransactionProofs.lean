import QuantyDb.HolderProofs

/-! # A transaction around a closure

    `Database::transaction` opens a transaction, hands a closure the means to
    run statements, and commits or rolls back by what the closure answers.  The
    handle passes every statement on, so a closure can end the transaction
    under its caller; one that does not gets all or nothing. -/

namespace QuantyTransaction

open QuantyAst QuantyPage QuantyPager QuantyKey QuantyDatabase QuantySession QuantyExecutor Session
open QuantySavepoint QuantyRollback

variable {E : Engine} {L : Language} {α : Type}

/-! ## The call -/

/-- The statements of a closure, one after the other, whatever each answers. -/
def runAll (s : Session E) (body : List Statement) : Session E :=
  body.foldl (fun s stmt => (s.runParsed stmt).2) s

/-- The statements that an open transaction runs; the others it refuses, or
    answers from history. -/
def runsInTxn : Statement → Bool
  | .begin | .branch _ _ | .switch _ | .merge _ | .dropBranch _ | .showBranches | .showStats
  | .showSuggestions | .log | .gc _ => false
  | .get g => g.asOf.isNone
  | _ => true

/-- One statement in a transaction: its work if it succeeds, and if it fails
    the transaction put back to where it was. -/
def effect (L : Language) (tx : WriteTx) (stmt : Statement) : WriteTx :=
  if runsInTxn stmt then
    let ran := L.statement tx.savepoint stmt
    match ran.result with
    | .ok _ => ran.tx.releaseSavepoint
    | .error _ => ran.tx.rollbackSavepoint tx.roots
  else tx

def effects (L : Language) (tx : WriteTx) (body : List Statement) : WriteTx :=
  body.foldl (effect L) tx

/-- Two transactions that no read of catalog or tables tells apart. -/
def Alike (tx tx' : WriteTx) : Prop :=
  (∀ key, tx'.get key = tx.get key ∧ tx'.catalogGet key = tx.catalogGet key)
    ∧ ∀ start stop, tx'.scan start stop = tx.scan start stop
      ∧ tx'.catalogScan start stop = tx.catalogScan start stop

theorem Alike.refl (tx : WriteTx) : Alike tx tx := ⟨fun _ => ⟨rfl, rfl⟩, fun _ _ => ⟨rfl, rfl⟩⟩

theorem Alike.trans {tx tx' tx'' : WriteTx} (h : Alike tx tx') (h' : Alike tx' tx'') :
    Alike tx tx'' :=
  ⟨fun key => ⟨(h'.1 key).1.trans (h.1 key).1, (h'.1 key).2.trans (h.1 key).2⟩,
    fun start stop => ⟨(h'.2 start stop).1.trans (h.2 start stop).1,
      (h'.2 start stop).2.trans (h.2 start stop).2⟩⟩

/-- What the statements of the language keep to: they work through the calls of
    a transaction, and one that succeeds and reports no write leaves what can be
    read.  One that fails may have written without a report: `put` notes the
    write behind the last of a row's entries. -/
structure Keeps (L : Language) : Prop where
  calls : ∀ tx stmt, ∃ ops, (L.statement tx stmt).tx = runTx ops tx
  quiet : ∀ tx stmt out, (L.statement tx stmt).result = .ok out →
    (L.statement tx stmt).mutated = false → Alike tx (L.statement tx stmt).tx

/-- A transaction between two statements: on the database's pager, with no
    savepoint. -/
structure Resting (db : Db) (tx : WriteTx) : Prop where
  pager : tx.batch.pager = db.pager
  base : tx.batch.base = db.pager.committed
  closed : tx.batch.savepoint = none
  sorted : AssocList.Sorted tx.batch.dirty

/-- Suspending loses nothing of it. -/
theorem Resting.attach {db : Db} {tx : WriteTx} (h : Resting db tx) :
    attachTx db tx.suspend = tx := by
  obtain ⟨⟨ledger, pager, base, dirty, savepoint, nodes⟩, root, catalogRoot, branch, parent⟩ := tx
  obtain ⟨rfl, -, rfl, -⟩ := h
  rfl

section Statements

variable {db : Db} {tx : WriteTx} {stmt : Statement}

theorem alike_rollback (hL : Keeps L) (h : Resting db tx) (stmt : Statement) :
    Restored tx.batch ((L.statement tx.savepoint stmt).tx.rollbackSavepoint tx.roots).batch
      ∧ Alike tx ((L.statement tx.savepoint stmt).tx.rollbackSavepoint tx.roots) := by
  obtain ⟨ops, hops⟩ := hL.calls tx.savepoint stmt
  rw [hops]
  exact rollback_reads ops h.sorted

theorem Resting.effect (hL : Keeps L) (h : Resting db tx) (stmt : Statement) :
    Resting db (effect L tx stmt) := by
  rw [QuantyTransaction.effect]
  split
  · dsimp only
    split
    · obtain ⟨ops, hops⟩ := hL.calls tx.savepoint stmt
      have hran := runTx_undoable ops tx.savepoint
      rw [← hops] at hran
      exact ⟨hran.pager.trans h.pager, hran.base.trans h.base, rfl, hran.sorted h.sorted⟩
    · have hback := (alike_rollback hL h stmt).1
      exact ⟨hback.pager.trans h.pager, hback.base.trans h.base, hback.closed,
        hback.dirty ▸ h.sorted⟩
  · exact h

/-- A statement that fails, or that the transaction does not run, changes
    nothing. -/
theorem effect_failed (hL : Keeps L) (h : Resting db tx) {e : ExecError}
    (hfail : (L.statement tx.savepoint stmt).result = .error e) : Alike tx (effect L tx stmt) := by
  rw [QuantyTransaction.effect]
  split
  · dsimp only
    rw [hfail]
    exact (alike_rollback hL h stmt).2
  · exact Alike.refl tx

/-- Whether the session notes a write. -/
def wrote (L : Language) (tx : WriteTx) (stmt : Statement) : Bool :=
  runsInTxn stmt && match (L.statement tx.savepoint stmt).result with
    | .ok _ => !isRead stmt && (L.statement tx.savepoint stmt).mutated
    | .error _ => false

theorem effect_quiet (hL : Keeps L) (h : Resting db tx) (hno : wrote L tx stmt = false) :
    Alike tx (effect L tx stmt) := by
  cases hres : (L.statement tx.savepoint stmt).result with
  | error e => exact effect_failed hL h hres
  | ok out =>
      rw [effect]
      split
      · rename_i hruns
        rw [wrote, hruns, hres, Bool.true_and, Bool.and_eq_false_iff] at hno
        have hmut : (L.statement tx.savepoint stmt).mutated = false := by
          rcases hno with hread | hmut
          · exact L.reads_pure _ _ (by simpa using hread)
          · exact hmut
        dsimp only
        rw [hres]
        exact hL.quiet tx.savepoint stmt out hres hmut
      · exact Alike.refl tx

/-! ## A session in the closure -/

/-- The session has the transaction `tx` open on the store it began with. -/
structure Holds (s : Session L.engine) (store : Store) (tx : WriteTx) (m : Bool) : Prop where
  db : s.db = store
  txn : s.txn = some ⟨tx.suspend, m⟩
  rests : Resting store.db tx

variable {s : Session L.engine} {store : Store} {m : Bool}

theorem Holds.resume (h : Holds s store tx m) : L.engine.resume s.db tx.suspend = .ok tx := by
  have hfresh : Fresh L.engine s.db ⟨tx.suspend, m⟩ := by
    rw [h.db]
    exact congrArg Meta.txid h.rests.base
  rw [hfresh.resume]
  exact congrArg _ (h.db ▸ h.rests.attach)

theorem runParsed_within {o : Open L.engine} (htxn : s.txn = some o) (hc : stmt ≠ .commit)
    (hr : stmt ≠ .rollback) : (runsInTxn stmt = true ∧ s.runParsed stmt = s.inOpenTxn o stmt) ∨
      (runsInTxn stmt = false ∧ ∃ result, s.runParsed stmt = (result, s)) := by
  by_cases hb : stmt = .begin
  · rw [hb, runParsed, htxn]
    exact .inr ⟨rfl, _, rfl⟩
  · rw [runParsed_other s hb hc hr, htxn]
    dsimp only
    cases stmt with
    | get g =>
        rw [runInTxn, runsInTxn]
        cases g.asOf with
        | none => exact .inl ⟨rfl, rfl⟩
        | some at_ => exact .inr ⟨rfl, _, rfl⟩
    | _ => first | exact absurd rfl hb | exact absurd rfl hc | exact absurd rfl hr |
        exact .inl ⟨rfl, rfl⟩ | exact .inr ⟨rfl, _, rfl⟩

/-- **ONE STATEMENT** of a closure does to the open transaction what `effect`
    says. -/
theorem Holds.step (hL : Keeps L) (h : Holds s store tx m) (hc : stmt ≠ .commit)
    (hr : stmt ≠ .rollback) :
    Holds (s.runParsed stmt).2 store (effect L tx stmt) (m || wrote L tx stmt) := by
  suffices hs : (s.runParsed stmt).2.db = store ∧
      (s.runParsed stmt).2.txn = some ⟨(effect L tx stmt).suspend, m || wrote L tx stmt⟩ from
    ⟨hs.1, hs.2, h.rests.effect hL stmt⟩
  rcases runParsed_within h.txn hc hr with ⟨hruns, heq⟩ | ⟨hruns, result, heq⟩
  · rw [heq, inOpenTxn, h.resume, effect, wrote, if_pos hruns, hruns, Bool.true_and]
    dsimp only
    obtain ⟨htxn, hdb⟩ := note_txn (E := L.engine) _ _
    exact ⟨hdb.trans h.db, htxn⟩
  · rw [heq, effect, wrote, hruns, if_neg Bool.false_ne_true, Bool.false_and, Bool.or_false]
    exact ⟨h.db, h.txn⟩

end Statements

/-- The whole closure; it leaves nothing to commit unless a write was noted. -/
theorem Holds.run (hL : Keeps L) {store : Store} {body : List Statement}
    (hbody : ∀ stmt ∈ body, stmt ≠ .commit ∧ stmt ≠ .rollback) :
    ∀ {s : Session L.engine} {tx : WriteTx} {m : Bool}, Holds s store tx m →
      ∃ m', Holds (runAll s body) store (effects L tx body) m' ∧
        (m' = false → m = false ∧ Alike tx (effects L tx body)) := by
  induction body with
  | nil => exact fun {s tx m} h => ⟨m, h, fun hm => ⟨hm, Alike.refl tx⟩⟩
  | cons stmt rest ih =>
      intro s tx m h
      obtain ⟨hc, hr⟩ := hbody stmt (.head _)
      obtain ⟨m', hall, hquiet⟩ := ih (fun x hx => hbody x (.tail _ hx))
        (h.step hL hc hr)
      refine ⟨m', hall, fun hm => ?_⟩
      obtain ⟨hnone, halike⟩ := hquiet hm
      obtain ⟨hm, hwrote⟩ := Bool.or_eq_false_iff.mp hnone
      exact ⟨hm, (effect_quiet hL h.rests hwrote).trans halike⟩

/-- The final commit: one commit of what the statements came to, or the
    database as it was. -/
theorem Holds.commit {s : Session L.engine} {store : Store} {tx : WriteTx} {m : Bool}
    (h : Holds s store tx m) :
    ((∃ e, (s.runParsed .commit).1 = .error e) ∧ (s.runParsed .commit).2.db.db = store.db) ∨
      (∃ out, (s.runParsed .commit).1 = .ok out) ∧ (m = false ∧ (s.runParsed .commit).2.db = store ∨
        ∃ id p, tx.commit (store.clock 0) (store.clock 1) = .ok (id, p) ∧
          (s.runParsed .commit).2.db.db = { store.db with pager := p }) := by
  rw [runParsed, h.txn]
  cases m with
  | false => exact .inr ⟨⟨_, rfl⟩, .inl ⟨rfl, h.db⟩⟩
  | true =>
      dsimp only
      rw [if_pos rfl, h.resume]
      dsimp only
      rw [show L.engine.commit s.db tx = store.commit tx from congrArg (Store.commit · tx) h.db,
        Store.commit]
      cases hcommit : tx.commit (store.clock 0) (store.clock 1) with
      | error e => exact .inl ⟨⟨_, rfl⟩, rfl⟩
      | ok done => exact .inr ⟨⟨_, rfl⟩, .inr ⟨done.1, done.2, rfl, rfl⟩⟩

/-! ## All or nothing -/

end QuantyTransaction
