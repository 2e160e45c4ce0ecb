import QuantyDb.CursorModel
import QuantyDb.TreeCalls
import QuantyDb.ByteBuffer

/-! # The write batch over bytes

    The batch as memory has it: the pages it owns are buffers, a node is
    encoded into its buffer cell by cell, and a leaf that takes a new cell in
    place has its tail moved up and its count raised.  Beside some of the
    buffers the batch keeps the node that was encoded there.

    The pager behind the batch is a parameter: how large a page is, and what a
    read of a committed page returns. -/

namespace QuantyBytes

open QuantyKey QuantyPage QuantyPager QuantyBtree QuantyCodec QuantyNode QuantyCursor AssocList
open QuantyBytes
open LittleEndian ByteBuffer

/-! ## Encoding -/

def OUT_OF_RANGE : Error := .panic "range end index out of range for slice"

/-- Stores one after another from an offset on, and where they end. -/
def store (chunks : List Bytes) (off : Nat) (buf : Bytes) : Except Error (Bytes × Nat) :=
  match stores chunks off buf with
  | some r => .ok r
  | none => .error OUT_OF_RANGE

def PageKind.ofNode : Node → PageKind
  | .leaf _ => .leaf
  | .branch _ _ => .branch

/-- `page_type as u8`. -/
def PageKind.byte : PageKind → UInt8
  | .metaSlot => 0
  | .branch => 1
  | .leaf => 2
  | .overflow => 3
  | .freeList => 4
  | .blob => 5
  | .commit => 6

/-- `page::init_header`: type, flags and count. -/
def initHeader (kind : PageKind) (buf : Bytes) : Bytes := blit 4 [PageKind.byte kind, 0, 0, 0] buf

def writeKey (key : Key) (flag : UInt8) (off : Nat) (buf : Bytes) : Except Error (Bytes × Nat) :=
  if 2 ^ 16 ≤ key.length then .error (.panic "key length fits u16")
  else store [le 2 key.length, [flag], key.bytes] off buf

/-- The value of a leaf cell, behind its key. -/
def writeValue (v : ValueRef) (off : Nat) (buf : Bytes) : Except Error (Bytes × Nat) :=
  match v with
  | .inline v =>
      if 2 ^ 32 ≤ v.length then .error (.panic "inline value length")
      else store [le 4 v.length, v] off buf
  | .overflow head len => store [le 8 head, le 8 len] off buf

def valueFlag : ValueRef → UInt8
  | .inline _ => VFLAG_INLINE
  | .overflow _ _ => VFLAG_OVERFLOW

def writeLeafCell (cell : Key × ValueRef) (off : Nat) (buf : Bytes) :
    Except Error (Bytes × Nat) :=
  match writeKey cell.1 (valueFlag cell.2) off buf with
  | .error e => .error e
  | .ok (buf, off) => writeValue cell.2 off buf

def writeBranchCell (cell : Key × PageId) (off : Nat) (buf : Bytes) :
    Except Error (Bytes × Nat) :=
  match writeKey cell.1 0 off buf with
  | .error e => .error e
  | .ok (buf, off) => store [le 8 cell.2] off buf

/-- One cell after another. -/
def writeCells {α : Type} (cell : α → Nat → Bytes → Except Error (Bytes × Nat)) :
    List α → Nat → Bytes → Except Error (Bytes × Nat)
  | [], off, buf => .ok (buf, off)
  | a :: rest, off, buf =>
      match cell a off buf with
      | .error e => .error e
      | .ok (buf, off) => writeCells cell rest off buf

/-- What stands behind the header, from its offset on. -/
def writeBody (n : Node) (buf : Bytes) : Except Error (Bytes × Nat) :=
  match n with
  | .leaf es => writeCells writeLeafCell es PAGE_HEADER_LEN buf
  | .branch f es =>
      match store [le 8 f] PAGE_HEADER_LEN buf with
      | .error e => .error e
      | .ok (buf, off) => writeCells writeBranchCell es off buf

def entryCount : Node → Nat
  | .leaf es => es.length
  | .branch _ es => es.length

/-- `Node::encode_into`, with the number of bytes the encoding uses.  The tail
    past the last cell is zeroed. -/
def encodeNode (n : Node) (buf : Bytes) : Except Error (Bytes × Nat) :=
  if 2 ^ 16 ≤ entryCount n then .error (.panic "node entry count")
  else
    match writeBody n (blit 6 (le 2 (entryCount n)) (initHeader (PageKind.ofNode n) buf)) with
    | .error e => .error e
    | .ok (buf, off) => .ok (buf.take off ++ List.replicate (buf.length - off) 0, off)

/-- The in-place insert: the cells from `off` up to `used` move up, the cell
    goes into the gap and the count is raised. -/
def insertCellBytes (off used : Nat) (cell : Key × ValueRef) (buf : Bytes) : Except Error Bytes :=
  let size := leafCellSize cell.1 cell.2
  if used < off ∨ buf.length < used ∨ buf.length < off + size + (used - off) then
    .error OUT_OF_RANGE
  else
    match writeLeafCell cell off (copyWithin off used (off + size) buf) with
    | .error e => .error e
    | .ok (buf, _) => .ok (blit 6 (le 2 (count buf + 1)) buf)

/-! ## The batch -/

structure BytePager where
  pageSize : Nat
  txid : Nat
  readPage : PageId → Except Error Bytes

structure ByteSavepoint where
  ledger : Ledger
  undo : List (PageId × Option Bytes)

structure ByteBatch extends Ledger where
  pager : BytePager
  base : Meta
  dirty : List (PageId × Bytes)
  savepoint : Option ByteSavepoint
  nodes : List (PageId × (Node × Nat))

abbrev ByteM := EStateM Error ByteBatch

namespace ByteBatch

/-- `Pager::begin`. -/
def start (p : BytePager) (m : Meta) : ByteBatch where
  nextPage := m.pageCount
  dataRoot := m.dataRoot
  catalogRoot := m.catalogRoot
  freelistRoot := m.freelistRoot
  commitPage := m.commitPage
  refsRoot := m.refsRoot
  reusePool := []
  chainCursor := m.freelistRoot
  deferredFree := []
  touchedFreelist := false
  allowReuse := true
  freelistOverride := none
  pager := p
  base := m
  dirty := []
  savepoint := none
  nodes := []

def pageSize (b : ByteBatch) : Nat := b.pager.pageSize

def owns (id : PageId) (b : ByteBatch) : Bool := (AssocList.get id b.dirty).isSome

def mark (b : ByteBatch) : ByteBatch := { b with savepoint := some ⟨b.toLedger, []⟩ }

def releaseSavepoint (b : ByteBatch) : ByteBatch := { b with savepoint := none }

def undoPage (b : ByteBatch) (e : PageId × Option Bytes) : ByteBatch :=
  match e.2 with
  | some buf =>
      { b with nodes := del e.1 b.nodes, dirty := put e.1 buf b.dirty }
  | none => { b with nodes := del e.1 b.nodes, dirty := del e.1 b.dirty }

def rollbackSavepoint (b : ByteBatch) : ByteBatch :=
  match b.savepoint with
  | none => b
  | some m => { m.undo.foldl undoPage b with toLedger := m.ledger, savepoint := none }

def record (id : PageId) (b : ByteBatch) : ByteBatch :=
  match b.savepoint with
  | none => b
  | some m =>
      if (AssocList.get id m.undo).isSome then b
      else { b with
        savepoint := some { m with undo := put id (AssocList.get id b.dirty) m.undo } }

/-- `suspend` and `resume`: what is owned is kept, the savepoint is not.  When
    another writer committed in between the batch is gone; the run then goes
    on with the one that was put down, which is more than the source offers. -/
def suspendResume (b : ByteBatch) : ByteBatch :=
  if b.pager.txid ≠ b.base.txid then b else { b with savepoint := none }

/-- `freelist::decode_page`. -/
def decodeFreeListPage (id : PageId) (buf : Bytes) : Except Error (PageId × List PageId) :=
  match pageType buf with
  | .error e => .error e
  | .ok kind =>
      if kind ≠ .freeList then
        .error (.corrupted (some id) "free list chain hit a non free list page")
      else
        let listed := ofLe (slice (PAGE_HEADER_LEN + 8) 2 buf)
        if idsPerPage buf.length < listed then
          .error (.corrupted (some id) "free list page claims impossible count")
        else .ok (getU64 buf PAGE_HEADER_LEN,
          (List.range listed).map (fun i => getU64 buf (PAGE_HEADER_LEN + 10 + i * 8)))

def refillPool (b : ByteBatch) : ByteBatch :=
  if b.reusePool = [] ∧ b.chainCursor ≠ NIL_PAGE then
    match b.pager.readPage b.chainCursor with
    | .error _ => { b with chainCursor := NIL_PAGE }
    | .ok buf =>
        match decodeFreeListPage b.chainCursor buf with
        | .error _ => { b with chainCursor := NIL_PAGE }
        | .ok (next, ids) => { b with
            reusePool := b.reusePool ++ ids
            deferredFree := b.deferredFree ++ [b.chainCursor]
            chainCursor := next
            touchedFreelist := true }
  else b

def extendFile (b : ByteBatch) : PageId × ByteBatch :=
  (b.nextPage, { b with nextPage := b.nextPage + 1 })

def takePageId (b : ByteBatch) : PageId × ByteBatch :=
  if b.allowReuse then
    let b := b.refillPool
    match b.reusePool.getLast? with
    | some id => (id, { b with reusePool := b.reusePool.dropLast })
    | none => b.extendFile
  else b.extendFile

/-- A page with an initialized header and zeros behind it. -/
def allocate (kind : PageKind) (b : ByteBatch) : PageId × ByteBatch :=
  let (id, b) := b.takePageId
  let b := b.record id
  (id, { b with
    dirty := put id (initHeader kind (List.replicate b.pageSize 0)) b.dirty
    nodes := del id b.nodes })

def keptNode (id : PageId) (b : ByteBatch) : Option Node := (AssocList.get id b.nodes).map Prod.fst

def keepNodeSized (id : PageId) (n : Node) (size : Nat) (b : ByteBatch) : ByteBatch :=
  let nodes :=
    if NODE_CACHE_PAGES ≤ b.nodes.length ∧ (AssocList.get id b.nodes).isNone then []
    else b.nodes
  { b with nodes := put id (n, size) nodes }

def pageBytes (id : PageId) (b : ByteBatch) : Except Error Bytes :=
  match AssocList.get id b.dirty with
  | some buf => .ok buf
  | none =>
      if id < 2 ∨ b.base.pageCount ≤ id then .error (.pageOutOfBounds id)
      else b.pager.readPage id

/-- The batch as a tree reads it. -/
def readPages (b : ByteBatch) : ReadPages where
  read id := b.pageBytes id
  pageSize := b.pageSize

/-- `page_mut` and what is written through it, which may run off the page. -/
def pageMut {α : Type} (id : PageId) (write : Bytes → Except Error (Bytes × α)) : ByteM α :=
  fun b =>
  let b := { b.record id with nodes := del id b.nodes }
  match AssocList.get id b.dirty with
  | none => .error (.pageNotWritable id) b
  | some buf =>
      match write buf with
      | .error e => .error e b
      | .ok (buf, a) => .ok a { b with dirty := put id buf b.dirty }

end ByteBatch

/-! ## What the tree asks for -/

open ByteBatch

/-- The end of `get`: the value of a cell found in place. -/
def readCellValue (b : ByteBatch) (buf : Bytes) : Option CellValue → Except Error (Option Bytes)
  | none => .ok none
  | some (.inline start stop) => .ok (some (range buf (start, stop)))
  | some (.overflow head len) => (readChain b.readPages.part b.pageSize head len).map some

def getLoop (b : ByteBatch) (key : Key) : Nat → PageId → Except Error (Option Bytes)
  | 0, _ => .error .outOfFuel
  | fuel + 1, page =>
      match b.pageBytes page with
      | .error e => .error e
      | .ok buf =>
          match pageType buf with
          | .error e => .error e
          | .ok .branch =>
              match branchChild buf page key with
              | .error e => .error e
              | .ok child => getLoop b key fuel child
          | .ok .leaf =>
              match findInLeaf buf page key with
              | .error e => .error e
              | .ok found => readCellValue b buf found
          | .ok _ =>
              match decode buf page with
              | .error e => .error e
              | .ok _ => .error (.panic "decode refuses a page that is not a node")

def get (root : PageId) (key : Key) (b : ByteBatch) : Except Error (Option Bytes) :=
  if root = NIL_PAGE ∨ maxKeyLen b.pageSize < key.length then .ok none
  else getLoop b key b.nextPage root

def descent (page : PageId) (key : Key) (b : ByteBatch) : Except Error (Option PageId) :=
  match b.keptNode page with
  | some (.branch f es) => .ok (some (QuantyBtree.branchChild f es key))
  | _ =>
      match b.pageBytes page with
      | .error e => .error e
      | .ok buf =>
          match pageType buf with
          | .error e => .error e
          | .ok .branch => (branchChild buf page key).map some
          | .ok _ => .ok none

def decodePage (page : PageId) : ByteM Node := fun b =>
  match b.pageBytes page with
  | .error e => .error e b
  | .ok buf =>
      match decode buf page with
      | .error e => .error e b
      | .ok n => .ok n b

def loadNode (page : PageId) : ByteM Node := fun b =>
  match AssocList.get page b.nodes with
  | some (n, _) => .ok n { b with nodes := del page b.nodes }
  | none => decodePage page b

/-- The node goes into the page, and is kept beside it. -/
def encodeInto (id : PageId) (n : Node) : ByteM Unit := do
  let size ← pageMut id (encodeNode n)
  modify (keepNodeSized id n size)

/-- One page of an overflow chain. -/
def writePart (id next : PageId) (part : Bytes) : ByteM Unit :=
  pageMut id fun buf =>
    if 2 ^ 16 ≤ part.length then .error (.panic "chunk fits u16")
    else (store [le 8 next, le 2 part.length, part] PAGE_HEADER_LEN buf).map (fun r => (r.1, ()))

/-- Where the cell at an index starts. -/
def cellOffset (es : List (Key × ValueRef)) (used i : Nat) : Nat :=
  if i = es.length then used else PAGE_HEADER_LEN + leafCells (es.take i)

def insertInPlace (page : PageId) (key : Key) (v : ValueRef) (unique : Bool) :
    ByteM (Option Insert) := fun b =>
  match AssocList.get page b.nodes, AssocList.get page b.dirty with
  | some (.leaf es, used), some buf =>
      let b := b.record page
      match binarySearch key es with
      | (_, true) => if unique then .ok (some .duplicate) b else .ok none b
      | (i, false) =>
          if used + leafCellSize key v ≤ b.pageSize then
            match insertCellBytes (cellOffset es used i) used (key, v) buf with
            | .error e => .error e b
            | .ok buf =>
                .ok (some (.done page)) { b with
                  dirty := put page buf b.dirty
                  nodes := put page
                    (.leaf (es.insertIdx i (key, v)), used + leafCellSize key v) b.nodes }
          else .ok none b
  | some _, some _ => .ok none (b.record page)
  | _, _ => .ok none b

def PageKind.ofType : PageType → PageKind
  | .branch => .branch
  | .leaf => .leaf
  | .overflow => .overflow
  | .freeList => .freeList
  | .commit => .commit

/-- A batch whose pages are bytes. -/
def bytes : QuantyTreeCalls.PageOps ByteBatch where
  pageSize := ByteBatch.pageSize
  nextPage b := b.nextPage
  get := QuantyBytes.get
  descent := descent
  owns := ByteBatch.owns
  loadNode := loadNode
  decodePage := decodePage
  allocate ty := fun b =>
    .ok (b.allocate (PageKind.ofType ty)).1 (b.allocate (PageKind.ofType ty)).2
  encodeInto := encodeInto
  writePart := writePart
  insertInPlace := insertInPlace

end QuantyBytes
