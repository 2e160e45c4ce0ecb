import QuantyDb.PageModel

/-! # The pager — committed pages and the write batch

    A pager is the committed state: the newest meta and the pages that storage
    holds.  A write batch builds the next state in memory.  It takes page ids
    from the free list of the committed state or past the end of the file,
    keeps what it wrote in `dirty`, and touches storage only when it commits.

    The maps of the source are ordered maps; here they are association lists
    in key order.  A batch keeps its state when a call fails, because a failed
    statement is undone by its savepoint and not by dropping the batch. -/

namespace QuantyPager

open QuantyKey QuantyPage AssocList

structure Meta where
  pageSize : Nat
  txid : Nat
  dataRoot : PageId
  catalogRoot : PageId
  freelistRoot : PageId
  pageCount : Nat
  unixTsMs : Nat
  commitPage : PageId
  refsRoot : PageId
  deriving DecidableEq, Repr

/-- A page as storage holds it: stamped with the commit that sealed it. -/
structure Sealed where
  lsn : Nat
  page : Page
  deriving DecidableEq, Repr

/-- Storage: the two meta slots, `none` where a slot holds nothing valid, and
    the pages written so far. -/
structure Storage where
  slotA : Option Meta
  slotB : Option Meta
  pages : List (PageId × Sealed)
  deriving DecidableEq, Repr

def Storage.slot (st : Storage) (i : Nat) : Option Meta :=
  if i = 0 then st.slotA else st.slotB

def Storage.writeMeta (st : Storage) (i : Nat) (m : Meta) : Storage :=
  if i = 0 then { st with slotA := some m } else { st with slotB := some m }

def Storage.writePage (st : Storage) (id : PageId) (s : Sealed) : Storage :=
  { st with pages := put id s st.pages }

def Storage.writePages (st : Storage) (ps : List (PageId × Sealed)) : Storage :=
  ps.foldl (fun st e => st.writePage e.1 e.2) st

structure Pager where
  pageSize : Nat
  storage : Storage
  committed : Meta
  deriving DecidableEq, Repr

/-- The pager of a new file: both slots hold the initial meta. -/
def Pager.initial (pageSize now : Nat) : Pager :=
  let m : Meta := ⟨pageSize, 0, NIL_PAGE, NIL_PAGE, NIL_PAGE, 2, now, NIL_PAGE, NIL_PAGE⟩
  ⟨pageSize, ⟨some m, some m, []⟩, m⟩

/-- `Pager::read_page`.  A page that was never written does not carry a
    checksum that matches. -/
def Pager.readPage (p : Pager) (id : PageId) : Except Error Page :=
  if id < 2 ∨ p.committed.pageCount ≤ id then .error (.pageOutOfBounds id)
  else
    match AssocList.get id p.storage.pages with
    | none => .error (.corrupted (some id) "checksum mismatch")
    | some s =>
        match s.page.check id with
        | .error e => .error e
        | .ok _ => .ok s.page

/-! ## The write batch -/

/-- What a batch knows besides the pages: the roots the next meta will carry
    and the state of page allocation.  A savepoint copies it whole. -/
structure Ledger where
  nextPage : PageId
  dataRoot : PageId
  catalogRoot : PageId
  freelistRoot : PageId
  commitPage : PageId
  refsRoot : PageId
  reusePool : List PageId
  chainCursor : PageId
  deferredFree : List PageId
  touchedFreelist : Bool
  allowReuse : Bool
  freelistOverride : Option (List PageId)
  deriving DecidableEq, Repr

/-- The state before a statement, and what each page it touched held. -/
structure Savepoint where
  ledger : Ledger
  undo : List (PageId × Option Page)
  deriving DecidableEq, Repr

structure Batch extends Ledger where
  pager : Pager
  base : Meta
  dirty : List (PageId × Page)
  savepoint : Option Savepoint
  /-- Decoded copies of pages the batch owns, with their encoded size. -/
  nodes : List (PageId × (Node × Nat))
  deriving DecidableEq, Repr

/-- A batch without the pager it works on. -/
structure SuspendedBatch where
  ledger : Ledger
  base : Meta
  dirty : List (PageId × Page)
  nodes : List (PageId × (Node × Nat))
  deriving DecidableEq, Repr

/-- A call on a batch: an answer or an error, and the batch either way. -/
abbrev BatchM := EStateM Error Batch

def NODE_CACHE_PAGES : Nat := 256

/-- `Pager::begin`. -/
def Pager.begin (p : Pager) : Batch where
  nextPage := p.committed.pageCount
  dataRoot := p.committed.dataRoot
  catalogRoot := p.committed.catalogRoot
  freelistRoot := p.committed.freelistRoot
  commitPage := p.committed.commitPage
  refsRoot := p.committed.refsRoot
  reusePool := []
  chainCursor := p.committed.freelistRoot
  deferredFree := []
  touchedFreelist := false
  allowReuse := true
  freelistOverride := none
  pager := p
  base := p.committed
  dirty := []
  savepoint := none
  nodes := []

namespace Batch

def pageSize (b : Batch) : Nat := b.pager.pageSize

def suspend (b : Batch) : SuspendedBatch := ⟨b.toLedger, b.base, b.dirty, b.nodes⟩

/-- `WriteBatch::savepoint`. -/
def mark (b : Batch) : Batch := { b with savepoint := some ⟨b.toLedger, []⟩ }

def releaseSavepoint (b : Batch) : Batch := { b with savepoint := none }

/-- Put back what one page held. -/
def undoPage (b : Batch) (e : PageId × Option Page) : Batch :=
  match e.2 with
  | some p => { b with nodes := del e.1 b.nodes, dirty := put e.1 p b.dirty }
  | none => { b with nodes := del e.1 b.nodes, dirty := del e.1 b.dirty }

def rollbackSavepoint (b : Batch) : Batch :=
  match b.savepoint with
  | none => b
  | some m =>
      let b := m.undo.foldl undoPage b
      { b with toLedger := m.ledger, savepoint := none }

/-- Remember what a page held before the statement first touched it. -/
def record (id : PageId) (b : Batch) : Batch :=
  match b.savepoint with
  | none => b
  | some m =>
      if (AssocList.get id m.undo).isSome then b
      else { b with
        savepoint := some { m with undo := put id (AssocList.get id b.dirty) m.undo } }

def owns (b : Batch) (id : PageId) : Bool := (AssocList.get id b.dirty).isSome

/-- The pull of `take_page_id`: the next page of the chain goes to the pool
    when the pool is empty.  A chain that does not read is given up. -/
def refillPool (b : Batch) : Batch :=
  if b.reusePool = [] ∧ b.chainCursor ≠ NIL_PAGE then
    match b.pager.readPage b.chainCursor with
    | .error _ => { b with chainCursor := NIL_PAGE }
    | .ok page =>
        match decodeFreeList b.pageSize b.chainCursor page with
        | .error _ => { b with chainCursor := NIL_PAGE }
        | .ok (next, ids) => { b with
            reusePool := b.reusePool ++ ids
            deferredFree := b.deferredFree ++ [b.chainCursor]
            chainCursor := next
            touchedFreelist := true }
  else b

/-- A page id past the end of the file. -/
def extendFile (b : Batch) : PageId × Batch :=
  (b.nextPage, { b with nextPage := b.nextPage + 1 })

def takePageId (b : Batch) : PageId × Batch :=
  if b.allowReuse then
    let b := b.refillPool
    match b.reusePool.getLast? with
    | some id => (id, { b with reusePool := b.reusePool.dropLast })
    | none => b.extendFile
  else b.extendFile

/-- Write a page this batch is about to own, and forget its decoded copy. -/
def setPage (id : PageId) (p : Page) (b : Batch) : Batch :=
  { b with dirty := put id p b.dirty, nodes := del id b.nodes }

def allocate (ty : PageType) (b : Batch) : PageId × Batch :=
  let (id, b) := b.takePageId
  (id, (b.record id).setPage id (Page.blank ty))

def keptNode (b : Batch) (id : PageId) : Option Node :=
  (AssocList.get id b.nodes).map Prod.fst

/-- `keep_node_sized`, with the bound on how many are kept. -/
def keepNodeSized (id : PageId) (n : Node) (size : Nat) (b : Batch) : Batch :=
  let nodes :=
    if NODE_CACHE_PAGES ≤ b.nodes.length ∧ (AssocList.get id b.nodes).isNone then []
    else b.nodes
  { b with nodes := put id (n, size) nodes }

/-- `WriteBatch::page_bytes`: the batch's own pages first. -/
def pageBytes (b : Batch) (id : PageId) : Except Error Page :=
  match AssocList.get id b.dirty with
  | some p => .ok p
  | none =>
      if id < 2 ∨ b.base.pageCount ≤ id then .error (.pageOutOfBounds id)
      else b.pager.readPage id

/-- `page_mut` and the write through it: committed pages are refused. -/
def pageMut (id : PageId) (f : Page → Page) : BatchM Unit := fun b =>
  let b := { b.record id with nodes := del id b.nodes }
  match AssocList.get id b.dirty with
  | some p => .ok () { b with dirty := put id (f p) b.dirty }
  | none => .error (.pageNotWritable id) b

/-- `take_node_sized`: the kept copy is handed over and forgotten. -/
def takeNodeSized (id : PageId) (b : Batch) : Option (Node × Nat) × Batch :=
  (AssocList.get id b.nodes, { b with nodes := del id b.nodes })

/-- `kept_and_page_mut` and the write through it: the kept copy and the page
    change together, when both are there. -/
def keptAndPageMut (id : PageId) (f : Node × Nat → Page → (Node × Nat) × Page) (b : Batch) :
    Batch :=
  match AssocList.get id b.nodes, AssocList.get id b.dirty with
  | some kept, some page =>
      let b := b.record id
      { b with
        nodes := put id (f kept page).1 b.nodes
        dirty := put id (f kept page).2 b.dirty }
  | _, _ => b

def setDataRoot (root : PageId) (b : Batch) : Batch := { b with dataRoot := root }

def setCatalogRoot (root : PageId) (b : Batch) : Batch := { b with catalogRoot := root }

def setCommitPage (page : PageId) (b : Batch) : Batch := { b with commitPage := page }

def setRefsRoot (root : PageId) (b : Batch) : Batch := { b with refsRoot := root }

def setFreelist (ids : List PageId) (b : Batch) : Batch :=
  { b with freelistOverride := some ids, touchedFreelist := true }

end Batch

def STALE_WRITER : String :=
  "another writer committed while this transaction was open, so its writes were made against a "
    ++ "snapshot that no longer exists; the transaction is gone and the work has to start again"

/-- `Pager::resume`: a batch whose base is no longer committed is refused. -/
def Pager.resume (p : Pager) (s : SuspendedBatch) : Except Error Batch :=
  if p.committed.txid ≠ s.base.txid then
    .error (.invalidArgument STALE_WRITER)
  else
    .ok { toLedger := s.ledger, pager := p, base := s.base, dirty := s.dirty,
          savepoint := none, nodes := s.nodes }

/-! ## Committing -/

/-- `Vec::swap_remove`: the last element takes the place of the one removed. -/
def swapRemove (l : List PageId) (i : Nat) : List PageId :=
  match l.getLast? with
  | none => []
  | some x => (l.set i x).dropLast

namespace Batch

/-- One page of the new chain: an id out of the list that may be written now,
    or a fresh one, and the ids left after taking it. -/
def chainPage (writable remaining : List PageId) (b : Batch) :
    PageId × List PageId × Batch :=
  match remaining.findIdx? (fun id => writable.contains id) with
  | some i =>
      let id := remaining.getD i NIL_PAGE
      let b := b.record id
      (id, swapRemove remaining i,
        { b with dirty := put id (Page.blank .freeList) b.dirty })
  | none =>
      let (id, b) := b.allocate .freeList
      (id, remaining, b)

/-- Where the ids of one chain page are split off the end of the list. -/
def splitOffAt (ps : Nat) (remaining : List PageId) : Nat :=
  remaining.length - min remaining.length (idsPerPage ps)

/-- The loop of `settle_freelist`; every round takes an id off `remaining`, so
    its length is fuel enough. -/
def settleLoop (writable : List PageId) :
    Nat → List PageId → PageId → BatchM PageId
  | _, [], head => pure head
  | 0, _ :: _, _ => throw .outOfFuel
  | fuel + 1, r :: rest, head => do
      let b ← get
      let remaining := (chainPage writable (r :: rest) b).2.1
      let keep := splitOffAt b.pageSize remaining
      set (chainPage writable (r :: rest) b).2.2
      pageMut (chainPage writable (r :: rest) b).1 (fun _ => .freeList head (remaining.drop keep))
      settleLoop writable fuel (remaining.take keep) (chainPage writable (r :: rest) b).1

/-- The ids to list and the chain they go in front of: what the batch has left
    over, or, after a sweep, the swept ids that it did not write. -/
def settleList (b : Batch) : List PageId × PageId :=
  match b.freelistOverride with
  | some list => (list.filter (fun id => !b.owns id), NIL_PAGE)
  | none => (b.reusePool ++ b.deferredFree, b.chainCursor)

/-- From here on allocation is settling only. -/
def stopReuse (b : Batch) : Batch :=
  { b with
    reusePool := [], freelistOverride := none, allowReuse := false,
    chainCursor := NIL_PAGE, deferredFree := [] }

def settleFreelist : BatchM Unit := do
  let b ← get
  if !b.touchedFreelist && b.deferredFree.isEmpty && b.freelistOverride.isNone then
    pure ()
  else
    set b.stopReuse
    let head ← settleLoop b.reusePool b.settleList.1.length b.settleList.1 b.settleList.2
    modify (fun b => { b with freelistRoot := head })

/-- The meta that a batch with a settled free list commits. -/
def newMeta (now : Nat) (b : Batch) : Meta where
  pageSize := b.pager.pageSize
  txid := b.base.txid + 1
  dataRoot := b.dataRoot
  catalogRoot := b.catalogRoot
  freelistRoot := b.freelistRoot
  pageCount := b.nextPage
  unixTsMs := now
  commitPage := b.commitPage
  refsRoot := b.refsRoot

def rootInFile (b : Batch) (root : PageId) : Bool :=
  decide (root = NIL_PAGE) || (decide (2 ≤ root) && decide (root < b.nextPage))

/-- `meta::txid_in_slot`. -/
def txidInSlot (st : Storage) (slot : Nat) : Nat :=
  match st.slot slot with
  | some m => m.txid
  | none => 0

/-- Everything `commit` does before it writes: the race check, the free list,
    the range of the roots. -/
def prepare (b : Batch) : Except Error Batch :=
  let txid := b.base.txid + 1
  let found := txidInSlot b.pager.storage (txid % 2)
  if b.base.txid < found then .error (.writerRaced b.base.txid found)
  else
    match settleFreelist b with
    | .error e _ => .error e
    | .ok _ b =>
        if [b.dataRoot, b.catalogRoot, b.freelistRoot, b.commitPage, b.refsRoot].all
            b.rootInFile then .ok b
        else .error (.invalidArgument "root pointer outside the file")

/-- The dirty pages, sealed, in the order they are written. -/
def sealedPages (b : Batch) : List (PageId × Sealed) :=
  b.dirty.map (fun e => (e.1, ⟨b.base.txid + 1, e.2⟩))

/-- The pager once the pages, and then the meta, are written. -/
def publish (now : Nat) (b : Batch) : Pager where
  pageSize := b.pager.pageSize
  storage := (b.pager.storage.writePages b.sealedPages).writeMeta
    ((b.newMeta now).txid % 2) (b.newMeta now)
  committed := b.newMeta now

/-- `WriteBatch::commit` when storage does what it is asked. -/
def commit (now : Nat) (b : Batch) : Except Error (Nat × Pager) :=
  match b.prepare with
  | .error e => .error e
  | .ok b => .ok ((b.newMeta now).txid, b.publish now)

end Batch

end QuantyPager
