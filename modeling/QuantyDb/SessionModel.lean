import QuantyDb.AnswerModel
import QuantyDb.DbModel

/-! # A session

    A session runs statements on a database it owns, one at a time.  Outside a
    transaction each statement is its own commit; `begin` opens a transaction
    that is suspended between statements, and a statement that fails in it is
    undone and does not close it.

    What a statement does to the tables is a parameter here, the engine: the
    rules of this file are those of transactions. -/

namespace QuantySession

open QuantyPage QuantyAst
open QuantyPager (STALE_WRITER)

/-- The statements that only read. -/
def isRead : Statement → Bool
  | .get _ | .showTables | .explain _ => true
  | _ => false

/-- What one statement leaves: its result, the transaction it ran in, whether it
    wrote, and the scan an index would have saved. -/
structure Ran (Tx Scan : Type) where
  result : Except ExecError Output
  tx : Tx
  mutated : Bool
  scanned : Option Scan

/-- What a session runs its statements with.  A transaction is based on the
    commit it began at, running a statement does not change that, and a
    statement that only reads does not write.  Every call returns: a statement
    that panics is not an engine's, and what becomes of the process then is
    outside this model. -/
structure Engine where
  Db : Type
  Tx : Type
  Suspended : Type
  Roots : Type
  Scan : Type
  Workload : Type
  txid : Db → Nat
  base : Suspended → Nat
  begin_ : Db → Tx
  suspend : Tx → Suspended
  /-- A suspended transaction on the database as it is now. -/
  attach : Db → Suspended → Tx
  savepoint : Tx → Tx
  releaseSavepoint : Tx → Tx
  roots : Tx → Roots
  rollbackSavepoint : Roots → Tx → Tx
  /-- The database after a commit, which may fail. -/
  commit : Db → Tx → Except ExecError Unit × Db
  statement : Tx → Statement → Ran Tx Scan
  readAsOf : Db → Get → AsOf → Except ExecError Output
  /-- The branch and history statements, which commit on their own. -/
  own : Db → Workload → Statement → Except ExecError Output × Db
  noteScan : Workload → Scan → Workload
  base_begin : ∀ db, base (suspend (begin_ db)) = txid db
  base_attach : ∀ db s, base (suspend (attach db s)) = base s
  base_savepoint : ∀ tx, base (suspend (savepoint tx)) = base (suspend tx)
  base_release : ∀ tx, base (suspend (releaseSavepoint tx)) = base (suspend tx)
  base_rollback : ∀ r tx, base (suspend (rollbackSavepoint r tx)) = base (suspend tx)
  base_statement : ∀ tx s, base (suspend (statement tx s).tx) = base (suspend tx)
  reads_pure : ∀ tx s, isRead s = true → (statement tx s).mutated = false

variable {E : Engine}

/-- `Db::resume`: refused when somebody committed in between. -/
def Engine.resume (E : Engine) (db : E.Db) (tx : E.Suspended) : Except ExecError E.Tx :=
  if E.txid db ≠ E.base tx then
    .error (.storage (.invalidArgument STALE_WRITER))
  else .ok (E.attach db tx)

/-- An open explicit transaction. -/
structure Open (E : Engine) where
  tx : E.Suspended
  mutated : Bool

structure Session (E : Engine) where
  db : E.Db
  workload : E.Workload
  txn : Option (Open E)

def NOT_IN_TXN : String :=
  "branch and history statements cannot run inside a transaction; commit or rollback first"

namespace Session

/-- Take the open transaction out. -/
def park (s : Session E) : Option (Open E) × Session E := (s.txn, { s with txn := none })

/-- Put a parked transaction back. -/
def unpark (s : Session E) (parked : Option (Open E)) : Session E := { s with txn := parked }

def note (s : Session E) : Option E.Scan → Session E
  | none => s
  | some scan => { s with workload := E.noteScan s.workload scan }

/-- `in_open_txn`: one statement on the open transaction. -/
def inOpenTxn (s : Session E) (open_ : Open E) (stmt : Statement) :
    Except ExecError Output × Session E :=
  match E.resume s.db open_.tx with
  | .error e => (.error e, { s with txn := none })
  | .ok tx =>
      let ran := E.statement (E.savepoint tx) stmt
      let done := match ran.result with
        | .ok _ => E.releaseSavepoint ran.tx
        | .error _ => E.rollbackSavepoint (E.roots tx) ran.tx
      let wrote := match ran.result with
        | .ok _ => !isRead stmt && ran.mutated
        | .error _ => false
      (ran.result, { s with txn := some ⟨E.suspend done, open_.mutated || wrote⟩ }.note ran.scanned)

/-- `run_in_txn`. -/
def runInTxn (s : Session E) (open_ : Open E) (stmt : Statement) :
    Except ExecError Output × Session E :=
  match stmt with
  | .branch _ _ | .switch _ | .merge _ | .dropBranch _ | .showBranches | .showStats
  | .showSuggestions | .log | .gc _ => (.error (.exec NOT_IN_TXN), s)
  | .get g => match g.asOf with
      | some at_ => (E.readAsOf s.db g at_, s)
      | none => s.inOpenTxn open_ stmt
  | stmt => s.inOpenTxn open_ stmt

/-- A statement that is a transaction of its own. -/
def runOnce (s : Session E) (stmt : Statement) : Except ExecError Output × Session E :=
  let ran := E.statement (E.begin_ s.db) stmt
  match ran.result with
  | .error e => (.error e, s)
  | .ok out =>
      if ran.mutated then
        match E.commit s.db ran.tx with
        | (.error e, db) => (.error e, { s with db := db })
        | (.ok _, db) => (.ok out, { s with db := db }.note ran.scanned)
      else (.ok out, s.note ran.scanned)

/-- A statement outside a transaction. -/
def runAutocommit (s : Session E) (stmt : Statement) : Except ExecError Output × Session E :=
  match stmt with
  | .branch _ _ | .switch _ | .merge _ | .dropBranch _ | .showBranches | .showStats
  | .showSuggestions | .log | .gc _ =>
      let (result, db) := E.own s.db s.workload stmt
      (result, { s with db := db })
  | .get g => match g.asOf with
      | some at_ => (E.readAsOf s.db g at_, s)
      | none => s.runOnce stmt
  | stmt => s.runOnce stmt

/-- `run_parsed`, which is also `execute_ast`. -/
def runParsed (s : Session E) (stmt : Statement) : Except ExecError Output × Session E :=
  match stmt with
  | .begin => match s.txn with
      | some _ => (.error (.exec "a transaction is already open; commit or rollback first"), s)
      | none => (.ok .ok, { s with txn := some ⟨E.suspend (E.begin_ s.db), false⟩ })
  | .commit => match s.txn with
      | none => (.error (.exec "no transaction is open"), s)
      | some open_ =>
          let s := { s with txn := none }
          if open_.mutated then
            match E.resume s.db open_.tx with
            | .error e => (.error e, s)
            | .ok tx => match E.commit s.db tx with
                | (.error e, db) => (.error e, { s with db := db })
                | (.ok _, db) => (.ok .ok, { s with db := db })
          else (.ok .ok, s)
  | .rollback => match s.txn with
      | none => (.error (.exec "no transaction is open"), s)
      | some _ => (.ok .ok, { s with txn := none })
  | stmt => match s.txn with
      | some open_ => s.runInTxn open_ stmt
      | none => s.runAutocommit stmt

end Session

end QuantySession
