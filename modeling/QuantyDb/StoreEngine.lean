import QuantyDb.SavepointProofs
import QuantyDb.SessionModel

/-! # The engine of a store

    The transactions of the database, as the engine that a session runs on.
    What a statement does inside a transaction is the language's; the branch and
    history statements are calls of the database, each with a commit of its
    own. -/

namespace QuantySession

open QuantyPage QuantyAst QuantyPager QuantyDatabase QuantySavepoint WriteTx

/-- What the statements of a language do inside a transaction.  They work on
    the batch of the transaction, which stays based where it was. -/
structure Language where
  Scan : Type
  Workload : Type
  statement : WriteTx → Statement → Ran WriteTx Scan
  runGet : Snapshot → Get → Except ExecError Output
  /-- `show stats` and `show suggestions`. -/
  report : Db → Workload → Statement → Except ExecError Output
  noteScan : Workload → Scan → Workload
  base_statement : ∀ tx s, (statement tx s).tx.batch.base = tx.batch.base
  reads_pure : ∀ tx s, isRead s = true → (statement tx s).mutated = false

/-- A database and the clock that its commits read. -/
structure Store where
  db : Db
  clock : Nat → Nat

namespace Store

/-- The clock after `n` readings. -/
def tick (s : Store) (n : Nat) : Store := { s with clock := fun i => s.clock (i + n) }

/-- A call that changes the database and cannot be half done. -/
def attempt {α : Type} (s : Store) (call : Except Error (α × Db)) (say : α → Output) :
    Except ExecError Output × Store :=
  match call with
  | .ok (a, db) => (.ok (say a), { s.tick 1 with db := db })
  | .error e => (.error (.storage e), s.tick 1)

def commit (s : Store) (tx : WriteTx) : Except ExecError Unit × Store :=
  match tx.commit (s.clock 0) (s.clock 1) with
  | .ok (_, p) => (.ok (), { s.tick 2 with db := { s.db with pager := p } })
  | .error e => (.error (.storage e), s.tick 2)

/-- `read_as_of`. -/
def readAsOf (L : Language) (s : Store) (g : Get) (at_ : AsOf) : Except ExecError Output :=
  let found := match at_ with
    | .commit id => s.db.snapshotAt id.toNat
    | .time t => s.db.snapshotAtTime t.toNat
  match found with
  | .ok snap => L.runGet snap g
  | .error e => .error (.storage e)

def branchLine (current : String) (b : String × BranchRef) : String :=
  (if b.1 = current then "*" else " ") ++ " " ++ b.1 ++ " @" ++ toString b.2.headId

def commitLine (c : CommitInfo) : String :=
  "commit " ++ toString c.commitId ++ " parent " ++ toString c.parentId

/-- The branch and history statements. -/
def own (L : Language) (s : Store) (w : L.Workload) (stmt : Statement) :
    Except ExecError Output × Store :=
  match stmt with
  | .branch name at_ =>
      s.attempt ((s.db.createBranch name (at_.map UInt64.toNat) (s.clock 0)).map ((), ·))
        (fun _ => .ok)
  | .switch name =>
      s.attempt ((s.db.switchBranch name (s.clock 0)).map ((), ·))
        (fun _ => .lines ["switched to " ++ name])
  | .merge name =>
      s.attempt (s.db.mergeFf name (s.clock 0))
        (fun head => .lines ["merged " ++ name ++ ", head is now commit " ++ toString head])
  | .dropBranch name => s.attempt ((s.db.dropBranch name (s.clock 0)).map ((), ·)) (fun _ => .ok)
  | .showBranches => match s.db.branches with
      | .ok l => (.ok (.lines (l.map (branchLine s.db.current))), s)
      | .error e => (.error (.storage e), s)
  | .log => match s.db.log with
      | .ok l => (.ok (.lines (l.map commitLine)), s)
      | .error e => (.error (.storage e), s)
  | .gc keep =>
      s.attempt (s.db.gc keep.toNat (s.clock 0)) (fun report => .lines
        ["gc pruned " ++ toString report.prunedCommits ++ " commits, freed "
          ++ toString report.freedPages ++ " pages"])
  | stmt => (L.report s.db w stmt, s)

end Store

theorem base_rollbackSavepoint (b : Batch) : b.rollbackSavepoint.base = b.base := by
  cases hm : b.savepoint with
  | none => rw [Batch.rollbackSavepoint, hm]
  | some m => exact (rollback_rest hm).2.2.1

/-- `Pager::resume` without the check. -/
def attachTx (db : Db) (tx : SuspendedTx) : WriteTx where
  batch := { toLedger := tx.batch.ledger, pager := db.pager, base := tx.batch.base,
             dirty := tx.batch.dirty, savepoint := none, nodes := tx.batch.nodes }
  root := tx.root
  catalogRoot := tx.catalogRoot
  branch := tx.branch
  parent := tx.parent

/-- The engine that a language makes of a store. -/
def Language.engine (L : Language) : Engine where
  Db := Store
  Tx := WriteTx
  Suspended := SuspendedTx
  Roots := PageId × PageId
  Scan := L.Scan
  Workload := L.Workload
  txid s := s.db.pager.committed.txid
  base tx := tx.batch.base.txid
  begin_ s := s.db.begin
  suspend := suspend
  attach s := attachTx s.db
  savepoint := savepoint
  releaseSavepoint := releaseSavepoint
  roots := roots
  rollbackSavepoint := rollbackSavepoint
  commit := Store.commit
  statement := L.statement
  readAsOf := Store.readAsOf L
  own := Store.own L
  noteScan := L.noteScan
  base_begin _ := rfl
  base_attach _ _ := rfl
  base_savepoint _ := rfl
  base_release _ := rfl
  base_rollback _ tx := congrArg Meta.txid (base_rollbackSavepoint tx.batch)
  base_statement tx s := congrArg Meta.txid (L.base_statement tx s)
  reads_pure := L.reads_pure

/-- The engine takes a suspended transaction up exactly as the database does. -/
theorem Language.resume_eq (L : Language) (s : Store) (tx : SuspendedTx) :
    L.engine.resume s tx = match s.db.resume tx with
      | .ok tx => .ok tx
      | .error e => .error (.storage e) := by
  rw [Db.resume, Pager.resume]
  change (if s.db.pager.committed.txid ≠ tx.batch.base.txid then _ else _) = _
  by_cases h : s.db.pager.committed.txid ≠ tx.batch.base.txid
  · rw [if_pos h, if_pos h]
    rfl
  · rw [if_neg h, if_neg h]
    rfl

end QuantySession
