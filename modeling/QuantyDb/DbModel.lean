import QuantyDb.BtreeModel
import QuantyDb.KeyEncoding
import QuantyDb.LittleEndian

/-! # The database — commits, branches, transactions and collection

    A database is a pager and the name of the current branch.  Every commit
    writes a record that names its parent's record, so history is a graph;
    branches are named pointers into it, kept in a tree of their own whose root
    is in the meta.  A file that never branched has no such tree and reads as
    one branch whose head is the newest commit.

    The walks of the source follow page ids, and nothing but the history bounds
    them.  As for descents, the model gives a walk as many steps as there are
    page ids. -/

namespace QuantyDatabase

open QuantyKey QuantyPage QuantyPager QuantyBtree QuantyEncoding LittleEndian Batch

/-! ## Range scans -/

/-- What an iterator hands out, and the error it ends with, if it does. -/
structure Scanned (α : Type) where
  items : List α
  failed : Option Error
  deriving DecidableEq, Repr

/-- One iterator after another; an error ends both. -/
def Scanned.append {α : Type} (a b : Scanned α) : Scanned α :=
  if a.failed.isSome then a else ⟨a.items ++ b.items, b.failed⟩

def Scanned.join {α : Type} (l : List (Scanned α)) : Scanned α :=
  l.foldr Scanned.append ⟨[], none⟩

/-- The cells of a leaf that a scan starts with. -/
def leafFrom (start : Option Key) (es : List (Key × ValueRef)) : List (Key × ValueRef) :=
  match start with
  | none => es
  | some key => es.dropWhile (fun e => decide (e.1 < key))

/-- The child that a scan descends into first. -/
def firstIdx (start : Option Key) (es : List (Key × PageId)) : Nat :=
  match start with
  | none => 0
  | some key => Fan.rank key es

/-- `descend` and `advance_leaf`: the cells below a page, from `start` on.  The
    stack of the source is the recursion here; only the first path down looks
    at `start`. -/
def scanNode (r : Reader) : Nat → Option Key → PageId → Scanned (Key × ValueRef)
  | 0, _, _ => ⟨[], some .outOfFuel⟩
  | fuel + 1, start, page =>
      match r.read page with
      | .error e => ⟨[], some e⟩
      | .ok (.node (.leaf es)) => ⟨leafFrom start es, none⟩
      | .ok (.node (.branch f es)) =>
          match (f :: es.map Prod.snd).drop (firstIdx start es) with
          | [] => ⟨[], some (.panic "index out of bounds")⟩
          | c :: rest =>
              (scanNode r fuel start c).append
                (Scanned.join (rest.map (fun c => scanNode r fuel none c)))
      | .ok p =>
          match Node.decode page p with
          | .error e => ⟨[], some e⟩
          | .ok _ => ⟨[], some (.panic "decode refuses a page that is not a node")⟩

/-- `next_ref`: the end of the range is looked at before the value is read. -/
def readItems (r : Reader) (stop : Option Key) (failed : Option Error) :
    List (Key × ValueRef) → Scanned (Key × Bytes)
  | [] => ⟨[], failed⟩
  | (key, v) :: rest =>
      if stop.any (fun s => decide (s ≤ key)) then ⟨[], none⟩
      else
        match readValue r v with
        | .error e => ⟨[], some e⟩
        | .ok bytes =>
            let s := readItems r stop failed rest
            ⟨(key, bytes) :: s.items, s.failed⟩

def Reader.scan (r : Reader) (root : PageId) (start stop : Option Key) : Scanned (Key × Bytes) :=
  if root = NIL_PAGE then ⟨[], none⟩
  else
    let s := scanNode r r.bound start root
    readItems r stop s.failed s.items

/-- `for item in scan { let item = item?; .. }`, with the body's answers. -/
def Scanned.forEach {α β : Type} (s : Scanned α) (body : α → Except Error β) :
    Except Error (List β) := do
  let out ← s.items.mapM body
  match s.failed with
  | none => .ok out
  | some e => .error e

/-- The smallest byte string above every extension of a beginning, read from
    its end. -/
def succReversed : List UInt8 → Option Key
  | [] => none
  | b :: rest => if b = 0xFF then succReversed rest else some ((b + 1) :: rest).reverse

/-- `prefix_successor`. -/
def prefixSuccessor (p : Key) : Option Key := succReversed p.reverse

/-! ## Branch refs -/

def DEFAULT_BRANCH : String := "main"

/-- One branch head as the refs tree stores it. -/
structure BranchRef where
  headId : Nat
  headPage : PageId
  floorId : Nat
  deriving DecidableEq, Repr

def BranchRef.encode (r : BranchRef) : Bytes :=
  le 8 r.headId ++ (le 8 r.headPage ++ le 8 r.floorId)

def BranchRef.decode (buf : Bytes) : Except Error BranchRef :=
  if buf.length ≠ 24 then .error (.corrupted none "branch ref has the wrong size")
  else .ok ⟨ofLe (slice 0 8 buf), ofLe (slice 8 8 buf), ofLe (slice 16 8 buf)⟩

def headKey : Key := encodeKey [.text "head"]

def branchKey (name : String) : Key := encodeKey [.text "branch", .text name]

def branchesPrefix : Key := encodeKey [.text "branch"]

/-- Branch names travel through queries and the refs tree. -/
def validateName (name : String) : Except Error Unit :=
  if name.toList ≠ [] ∧ (asBytes name).length ≤ 64
      ∧ name.toList.all (fun c => c.isAlphanum || c == '_' || c == '-') = true
      ∧ name.toList.head?.any Char.isAlphanum = true then .ok ()
  else .error (.invalidArgument
    "branch names are 1 to 64 ascii letters, digits, '_' or '-', starting alphanumeric")

/-! ## Commit records -/

def readRecord (r : Reader) (page : PageId) : Except Error CommitInfo :=
  match r.read page with
  | .error e => .error e
  | .ok (.commit info) => .ok info
  | .ok _ => .error (.corrupted (some page) "expected a commit record page")

/-- The record of the commit that the batch is about to make. -/
def writeRecord (parentId : Nat) (parentPage dataRoot catalogRoot : PageId) (ts : Nat) :
    BatchM PageId := do
  let b ← get
  let id ← allocate .commit
  pageMut id
    (fun _ => .commit ⟨b.base.txid + 1, parentId, dataRoot, catalogRoot, parentPage, ts⟩)
  return id

/-- The loop that every walk along parent edges is: what is done at a record
    also says whether to stop there. -/
def walkLoop (r : Reader) {σ : Type} (visit : PageId → CommitInfo → σ → Except Error (σ × Bool)) :
    Nat → PageId → σ → Except Error σ
  | 0, page, s => if page = NIL_PAGE then .ok s else .error .outOfFuel
  | fuel + 1, page, s =>
      if page = NIL_PAGE then .ok s
      else
        match readRecord r page with
        | .error e => .error e
        | .ok info =>
            match visit page info s with
            | .error e => .error e
            | .ok (s, true) => .ok s
            | .ok (s, false) => walkLoop r visit fuel info.parentPage s

def walk (r : Reader) {σ : Type} (visit : PageId → CommitInfo → σ → Except Error (σ × Bool))
    (head : PageId) (s : σ) : Except Error σ :=
  walkLoop r visit r.bound head s

/-- One record of `find`: ids only shrink down the edge, and the floor is the
    wall. -/
def findVisit (floor commitId : Nat) (_ : PageId) (info : CommitInfo) (s : Option CommitInfo) :
    Except Error (Option CommitInfo × Bool) :=
  if info.commitId = commitId then .ok (some info, true)
  else .ok (s, decide (info.commitId < commitId) || decide (info.commitId ≤ floor))

/-- `commit::find`. -/
def find (r : Reader) (head : PageId) (floor commitId : Nat) : Except Error (Option CommitInfo) :=
  walk r (findVisit floor commitId) head none

def findAtTimeVisit (floor unixTsMs : Nat) (_ : PageId) (info : CommitInfo)
    (s : Option CommitInfo) : Except Error (Option CommitInfo × Bool) :=
  if info.unixTsMs ≤ unixTsMs then .ok (some info, true)
  else .ok (s, decide (info.commitId ≤ floor))

/-- `commit::find_at_time`. -/
def findAtTime (r : Reader) (head : PageId) (floor unixTsMs : Nat) :
    Except Error (Option CommitInfo) :=
  walk r (findAtTimeVisit floor unixTsMs) head none

/-! ## The database -/

structure Db where
  pager : Pager
  current : String
  deriving DecidableEq, Repr

/-- A read-only view of one commit. -/
structure Snapshot where
  pager : Pager
  root : PageId
  catalogRoot : PageId
  commitId : Nat
  deriving DecidableEq, Repr

/-- A commit that was found, where, and the floor of the branch it was found
    on. -/
structure FoundCommit where
  info : CommitInfo
  page : PageId
  floor : Nat
  deriving DecidableEq, Repr

/-- One item of the scan over the branches. -/
def decodeBranch (item : Key × Bytes) : Except Error (String × BranchRef) := do
  let parts ← decodeKey item.1
  match parts.getLast? with
  | some (.text name) => return (name, ← BranchRef.decode item.2)
  | _ => .error (.corrupted none "branch key does not end in a name")

def NO_BRANCH : Error := .invalidArgument "no branch with this name"

/-- One record of the search that `find_commit` makes on one branch. -/
def findCommitVisit (floor commitId : Nat) (page : PageId) (info : CommitInfo)
    (s : Option FoundCommit) : Except Error (Option FoundCommit × Bool) :=
  if info.commitId = commitId then .ok (some ⟨info, page, floor⟩, true)
  else .ok (s, decide (info.commitId < commitId)
    || (decide (floor ≠ 0) && decide (info.commitId ≤ floor)))

/-- The branches in order, the first that has the commit answering. -/
def findOnBranches (r : Reader) (commitId : Nat) :
    List (String × BranchRef) → Except Error FoundCommit
  | [] => .error (.invalidArgument "no such commit id (it may have been garbage collected)")
  | (_, branch) :: rest =>
      if branch.headId = 0 then findOnBranches r commitId rest
      else
        match walk r (findCommitVisit branch.floorId commitId) branch.headPage none with
        | .error e => .error e
        | .ok (some found) => .ok found
        | .ok none => findOnBranches r commitId rest

namespace Db

/-- The one branch of a file that never branched. -/
def implicitRef (db : Db) : BranchRef :=
  ⟨db.pager.committed.txid, db.pager.committed.commitPage, 0⟩

/-- All branches with their heads, by name. -/
def branches (db : Db) : Except Error (List (String × BranchRef)) :=
  if db.pager.committed.refsRoot = NIL_PAGE then .ok [(DEFAULT_BRANCH, db.implicitRef)]
  else
    (Reader.scan (pagerReader db.pager) db.pager.committed.refsRoot (some branchesPrefix)
      (prefixSuccessor branchesPrefix)).forEach decodeBranch

def branchHead (db : Db) (name : String) : Except Error BranchRef :=
  if db.pager.committed.refsRoot = NIL_PAGE then
    if name = DEFAULT_BRANCH then .ok db.implicitRef else .error NO_BRANCH
  else
    match (pagerReader db.pager).get db.pager.committed.refsRoot (branchKey name) with
    | .error e => .error e
    | .ok (some bytes) => BranchRef.decode bytes
    | .ok none => .error NO_BRANCH

/-- A commit by its id, on any branch. -/
def findCommit (db : Db) (commitId : Nat) : Except Error FoundCommit := do
  findOnBranches (pagerReader db.pager) commitId (← db.branches)

/-- Is the commit on the parent chain of the head? -/
def isAncestor (db : Db) (ancestorId : Nat) (head : BranchRef) : Except Error Bool :=
  if ancestorId = 0 then .ok true
  else do
    return (← find (pagerReader db.pager) head.headPage head.floorId ancestorId).isSome

/-! ### Snapshots -/

def emptySnapshot (db : Db) : Snapshot := ⟨db.pager, NIL_PAGE, NIL_PAGE, 0⟩

def snapshotAt (db : Db) (commitId : Nat) : Except Error Snapshot :=
  if commitId = 0 then .ok db.emptySnapshot
  else do
    let found ← db.findCommit commitId
    return ⟨db.pager, found.info.dataRoot, found.info.catalogRoot, commitId⟩

def NOT_RETAINED : Error :=
  .invalidArgument "no commit that old is retained on this branch (raise the gc retention)"

def snapshotAtTime (db : Db) (unixTsMs : Nat) : Except Error Snapshot := do
  let head ← db.branchHead db.current
  if head.headId = 0 then db.snapshotAt 0
  else
    match ← findAtTime (pagerReader db.pager) head.headPage head.floorId unixTsMs with
    | some info => return ⟨db.pager, info.dataRoot, info.catalogRoot, info.commitId⟩
    | none => if head.floorId = 0 then db.snapshotAt 0 else .error NOT_RETAINED

def logVisit (floor : Nat) (_ : PageId) (info : CommitInfo) (out : List CommitInfo) :
    Except Error (List CommitInfo × Bool) :=
  .ok (out ++ [info], decide (floor ≠ 0) && decide (info.commitId ≤ floor))

/-- The history of the current branch, newest first. -/
def log (db : Db) : Except Error (List CommitInfo) := do
  let head ← db.branchHead db.current
  walk (pagerReader db.pager) (logVisit head.floorId) head.headPage []

/-! ### Branch operations -/

/-- The branch pointers, put one after another. -/
def putBranches (root : PageId) (l : List (String × BranchRef)) : BatchM PageId :=
  l.foldlM (fun root e => put root (branchKey e.1) e.2.encode) root

/-- The refs tree is made on first use, with the branches there are and the
    name of the current one. -/
def materializeRefsWith (current : String) (l : List (String × BranchRef)) : BatchM PageId := do
  let b ← get
  if b.base.refsRoot ≠ NIL_PAGE then return b.base.refsRoot
  else
    let root ← putBranches NIL_PAGE l
    put root headKey (asBytes current)

def materializeRefs (db : Db) : BatchM PageId := do
  materializeRefsWith db.current (← liftRead db.branches)

/-- A batch of its own: begun, worked on, committed. -/
def write {α : Type} (db : Db) (now : Nat) (work : BatchM α) : Except Error (α × Db) :=
  match work db.pager.begin with
  | .error e _ => .error e
  | .ok a b =>
      match b.commit now with
      | .error e => .error e
      | .ok (_, p) => .ok (a, { db with pager := p })

/-- Where a new branch points. -/
def branchTarget (db : Db) : Option Nat → Except Error BranchRef
  | none => db.branchHead db.current
  | some 0 => .ok ⟨0, NIL_PAGE, 0⟩
  | some (id + 1) => do
      let found ← db.findCommit (id + 1)
      return ⟨id + 1, found.page, found.floor⟩

def createBranchWork (db : Db) (name : String) (target : BranchRef) : BatchM Unit := do
  let root ← db.materializeRefs
  match ← liftRead ((batchReader (← get)).get root (branchKey name)) with
  | some _ => throw (.invalidArgument "a branch with this name already exists")
  | none =>
      let root ← put root (branchKey name) target.encode
      modify (setRefsRoot root)

/-- Create a branch at a commit, or at the head of the current branch. -/
def createBranch (db : Db) (name : String) (at? : Option Nat) (now : Nat) : Except Error Db := do
  validateName name
  let target ← db.branchTarget at?
  return (← db.write now (db.createBranchWork name target)).2

def switchBranchWork (db : Db) (name : String) : BatchM Unit := do
  let root ← db.materializeRefs
  match ← liftRead ((batchReader (← get)).get root (branchKey name)) with
  | none => throw NO_BRANCH
  | some _ =>
      let root ← put root headKey (asBytes name)
      modify (setRefsRoot root)

/-- Make a branch the one that new transactions commit to. -/
def switchBranch (db : Db) (name : String) (now : Nat) : Except Error Db := do
  validateName name
  return { (← db.write now (db.switchBranchWork name)).2 with current := name }

def dropBranchWork (db : Db) (name : String) : BatchM Unit := do
  let root ← db.materializeRefs
  let (root, existed) ← remove root (branchKey name)
  if existed then modify (setRefsRoot root) else throw NO_BRANCH

/-- Delete a branch pointer. -/
def dropBranch (db : Db) (name : String) (now : Nat) : Except Error Db :=
  if name = db.current then .error (.invalidArgument "cannot drop the current branch")
  else do
    return (← db.write now (db.dropBranchWork name)).2

/-- What `merge_ff` decides on the heads it reads, before it takes the writer
    lock: nothing to do, or the two heads to work with. -/
inductive MergePlan
  | upToDate (id : Nat)
  | forward (name : String) (ours theirs : BranchRef)
  deriving DecidableEq, Repr

def mergeRead (db : Db) (from? : String) : Except Error MergePlan :=
  if from? = db.current then .error (.invalidArgument "cannot merge a branch into itself")
  else do
    let ours ← db.branchHead db.current
    let theirs ← db.branchHead from?
    if ours.headId = theirs.headId then return .upToDate ours.headId
    else if ← db.isAncestor ours.headId theirs then return .forward db.current ours theirs
    else .error (.invalidArgument
      "branches have diverged; only fast-forward merges are supported for now")

/-- The pointer that a fast-forward leaves. -/
def merged (ours theirs : BranchRef) : BranchRef :=
  ⟨theirs.headId, theirs.headPage, max ours.floorId theirs.floorId⟩

def mergeWork (db : Db) (name : String) (ours theirs : BranchRef) : BatchM Unit := do
  let root ← db.materializeRefs
  let root ← put root (branchKey name) (merged ours theirs).encode
  modify (setRefsRoot root)

/-- The step under the writer lock, with what was read before it. -/
def mergeWrite (db : Db) (now : Nat) : MergePlan → Except Error (Nat × Db)
  | .upToDate id => .ok (id, db)
  | .forward name ours theirs => do
      return ((merged ours theirs).headId, (← db.write now (db.mergeWork name ours theirs)).2)

/-- Fast-forward the current branch to the head of another. -/
def mergeFf (db : Db) (from? : String) (now : Nat) : Except Error (Nat × Db) := do
  db.mergeWrite now (← db.mergeRead from?)

end Db

/-! ## Write transactions -/

structure WriteTx where
  batch : Batch
  root : PageId
  catalogRoot : PageId
  branch : String
  parent : BranchRef
  deriving DecidableEq, Repr

/-- A transaction with its borrows put down. -/
structure SuspendedTx where
  batch : SuspendedBatch
  root : PageId
  catalogRoot : PageId
  branch : String
  parent : BranchRef
  deriving DecidableEq, Repr

/-- A call on a transaction: the transaction stays, whether it fails or not. -/
abbrev TxM := EStateM Error WriteTx

namespace Db

def branchRefIn (b : Batch) (name : String) : Except Error (Option BranchRef) :=
  if b.base.refsRoot = NIL_PAGE then .ok none
  else
    match (batchReader b).get b.base.refsRoot (branchKey name) with
    | .error e => .error e
    | .ok none => .ok none
    | .ok (some bytes) =>
        match BranchRef.decode bytes with
        | .error e => .error e
        | .ok r => .ok (some r)

/-- The roots of a branch head, which are those of the newest meta only when
    this branch was the last one written to. -/
def rootsOf (b : Batch) (head : BranchRef) : PageId × PageId :=
  if head.headId = b.base.txid then (b.base.dataRoot, b.base.catalogRoot)
  else if head.headId = 0 then (NIL_PAGE, NIL_PAGE)
  else
    match readRecord (batchReader b) head.headPage with
    | .ok info => (info.dataRoot, info.catalogRoot)
    | .error _ => (b.base.dataRoot, b.base.catalogRoot)

/-- The head of a branch, as a transaction on it sees it. -/
def headIn (db : Db) (b : Batch) : BranchRef :=
  match branchRefIn b db.current with
  | .ok (some r) => r
  | _ => db.implicitRef

/-- Start a write transaction on the current branch. -/
def begin (db : Db) : WriteTx :=
  let b := db.pager.begin
  ⟨b, (rootsOf b (db.headIn b)).1, (rootsOf b (db.headIn b)).2, db.current, db.headIn b⟩

def resume (db : Db) (tx : SuspendedTx) : Except Error WriteTx := do
  return ⟨← db.pager.resume tx.batch, tx.root, tx.catalogRoot, tx.branch, tx.parent⟩

end Db

namespace WriteTx

def suspend (tx : WriteTx) : SuspendedTx :=
  ⟨tx.batch.suspend, tx.root, tx.catalogRoot, tx.branch, tx.parent⟩

def savepoint (tx : WriteTx) : WriteTx := { tx with batch := tx.batch.mark }

def releaseSavepoint (tx : WriteTx) : WriteTx := { tx with batch := tx.batch.releaseSavepoint }

def rollbackSavepoint (roots : PageId × PageId) (tx : WriteTx) : WriteTx :=
  { tx with batch := tx.batch.rollbackSavepoint, root := roots.1, catalogRoot := roots.2 }

/-- The roots as they stand, so that a caller can put them back. -/
def roots (tx : WriteTx) : PageId × PageId := (tx.root, tx.catalogRoot)

/-- A call on the data tree: the root moves when the call succeeds. -/
def onData {α : Type} (m : PageId → BatchM (PageId × α)) : TxM α := fun tx =>
  match m tx.root tx.batch with
  | .ok (root, a) b => .ok a { tx with batch := b, root := root }
  | .error e b => .error e { tx with batch := b }

/-- A call on the catalog tree. -/
def onCatalog {α : Type} (m : PageId → BatchM (PageId × α)) : TxM α := fun tx =>
  match m tx.catalogRoot tx.batch with
  | .ok (root, a) b => .ok a { tx with batch := b, catalogRoot := root }
  | .error e b => .error e { tx with batch := b }

/-- `btree::put`, which answers with the root alone. -/
def putAt (key : Key) (value : Bytes) (root : PageId) : BatchM (PageId × Unit) := do
  return (← put root key value, ())

def put (key : Key) (value : Bytes) : TxM Unit := onData (putAt key value)

def putUnique (key : Key) (value : Bytes) : TxM Bool :=
  onData (fun root => QuantyBtree.putUnique root key value)

def delete (key : Key) : TxM Bool := onData (fun root => remove root key)

def catalogPut (key : Key) (value : Bytes) : TxM Unit := onCatalog (putAt key value)

def catalogDelete (key : Key) : TxM Bool := onCatalog (fun root => remove root key)

def get (tx : WriteTx) (key : Key) : Except Error (Option Bytes) :=
  (batchReader tx.batch).get tx.root key

def catalogGet (tx : WriteTx) (key : Key) : Except Error (Option Bytes) :=
  (batchReader tx.batch).get tx.catalogRoot key

def scan (tx : WriteTx) (start stop : Option Key) : Scanned (Key × Bytes) :=
  Reader.scan (batchReader tx.batch) tx.root start stop

def catalogScan (tx : WriteTx) (start stop : Option Key) : Scanned (Key × Bytes) :=
  Reader.scan (batchReader tx.batch) tx.catalogRoot start stop

/-- Everything a commit does before the batch commits: the record, the roots,
    and the pointer of the branch once there is a refs tree. -/
def commitWork (tx : WriteTx) (ts : Nat) : BatchM Unit := do
  let record ← writeRecord tx.parent.headId tx.parent.headPage tx.root tx.catalogRoot ts
  modify (setDataRoot tx.root)
  modify (setCatalogRoot tx.catalogRoot)
  modify (setCommitPage record)
  let b ← MonadState.get
  if b.base.refsRoot ≠ NIL_PAGE then
    let root ← QuantyBtree.put b.base.refsRoot (branchKey tx.branch)
      (BranchRef.encode ⟨b.base.txid + 1, record, tx.parent.floorId⟩)
    modify (setRefsRoot root)

/-- Make everything durable: the id of the commit and the pager after it. -/
def commit (tx : WriteTx) (ts now : Nat) : Except Error (Nat × Pager) :=
  match tx.commitWork ts tx.batch with
  | .error e _ => .error e
  | .ok _ b => b.commit now

end WriteTx

/-! ## Collection -/

/-- `collect_overflow`. -/
def collectOverflow (r : Reader) : Nat → PageId → List PageId → Except Error (List PageId)
  | 0, _, out => .ok out
  | n + 1, page, out =>
      if page = NIL_PAGE ∨ page ∈ out then .ok out
      else
        match r.read page with
        | .error e => .error e
        | .ok (.overflow next _) => collectOverflow r n next (page :: out)
        | .ok _ => .error (.corrupted (some page) "overflow chain hit a non-overflow page")

/-- The pages of one value. -/
def collectValue (r : Reader) (out : List PageId) (e : Key × ValueRef) :
    Except Error (List PageId) :=
  match e.2 with
  | .inline _ => .ok out
  | .overflow head len => collectOverflow r (maxPages r.pageSize len) head out

/-- The loop of `collect_pages`.  Children go on a stack and come off it last
    first, each with everything below it before the next, so the stack is the
    recursion here. -/
def collectNode (r : Reader) : Nat → List PageId → PageId → Except Error (List PageId)
  | 0, _, _ => .error .outOfFuel
  | fuel + 1, out, page =>
      if page ∈ out then .ok out
      else
        match r.read page with
        | .error e => .error e
        | .ok p =>
            match Node.decode page p with
            | .error e => .error e
            | .ok (.leaf es) => es.foldlM (collectValue r) (page :: out)
            | .ok (.branch f es) =>
                (f :: es.map Prod.snd).reverse.foldlM
                  (fun out c => collectNode r fuel out c) (page :: out)

/-- Every page that a tree uses goes to the marks. -/
def collectPages (r : Reader) (root : PageId) (out : List PageId) : Except Error (List PageId) :=
  if root = NIL_PAGE then .ok out else collectNode r r.bound out root

/-- What a collection did. -/
structure GcReport where
  prunedCommits : Nat
  freedPages : Nat
  pageCount : Nat
  deriving DecidableEq, Repr

/-- The walk along one branch: the marks, how many commits are kept, the floor
    so far and how many commits fell out. -/
structure Marking where
  marked : List PageId
  kept : Nat
  floor : Nat
  pruned : Nat
  deriving DecidableEq, Repr

/-- One record of the mark phase. -/
def markVisit (r : Reader) (retain floorId : Nat) (page : PageId) (info : CommitInfo)
    (s : Marking) : Except Error (Marking × Bool) := do
  let s ← if s.kept < retain then do
      let marked ← collectPages r info.dataRoot (s.marked.insert page)
      let marked ← collectPages r info.catalogRoot marked
      pure (⟨marked, s.kept + 1, info.commitId, s.pruned⟩ : Marking)
    else pure { s with pruned := s.pruned + 1 }
  return (s, decide (floorId ≠ 0) && decide (info.commitId ≤ floorId))

/-- The mark phase: the marks, the branches with their new floors, and how many
    commits fell out. -/
def markBranches (r : Reader) (retain : Nat) :
    List (String × BranchRef) → List PageId → Nat →
      Except Error (List PageId × List (String × BranchRef) × Nat)
  | [], marked, pruned => .ok (marked, [], pruned)
  | (name, branch) :: rest, marked, pruned => do
      let s ← walk r (markVisit r retain branch.floorId) branch.headPage
        ⟨marked, 0, branch.floorId, pruned⟩
      let (marked, floors, pruned) ← markBranches r retain rest s.marked s.pruned
      return (marked, (name, ⟨branch.headId, branch.headPage, s.floor⟩) :: floors, pruned)

namespace Db

/-- What the marks leave of the committed file. -/
def sweep (pageCount : Nat) (marked : List PageId) : List PageId :=
  (List.range' 2 (pageCount - 2)).filter (fun id => decide (id ∉ marked))

def gcWork (db : Db) (free : List PageId) (l floors : List (String × BranchRef)) :
    BatchM Unit := do
  modify (setFreelist free)
  let root ← materializeRefsWith db.current l
  let root ← putBranches root floors
  modify (setRefsRoot root)

/-- Reclaim the pages of commits outside retention. -/
def gc (db : Db) (retain now : Nat) : Except Error (GcReport × Db) :=
  if retain = 0 then
    .error (.invalidArgument "gc must retain at least one commit per branch")
  else do
    let l ← db.branches
    let (marked, floors, pruned) ← markBranches (pagerReader db.pager) retain l [] 0
    let free := sweep db.pager.committed.pageCount marked
    let (_, db') ← db.write now (db.gcWork free l floors)
    return (⟨pruned, free.length, db.pager.committed.pageCount⟩, db')

end Db

end QuantyDatabase
