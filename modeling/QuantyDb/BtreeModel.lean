import QuantyDb.PagerModel

/-! # The copy-on-write B-tree, page by page

    Every operation that changes a node writes the change to a page the batch
    owns: the node's own page when the batch already owns it, a new one
    otherwise.  A child that moved is a change to its parent, so a path is
    copied up to the root once per batch.

    A descent follows page ids, and nothing but the shape of the tree bounds
    it.  The model gives it as many steps as there are page ids, which is more
    than any path of distinct pages has. -/

namespace QuantyBtree

open QuantyKey QuantyPage QuantyPager List Fan Node AssocList

/-! ## Reads -/

/-- `ReadPages`: pages by id, and how many ids there are. -/
structure Reader where
  read : PageId → Except Error Page
  pageSize : Nat
  bound : Nat

/-- What a batch sees. -/
def batchReader (b : Batch) : Reader := ⟨b.pageBytes, b.pageSize, b.nextPage⟩

/-- What the committed state shows. -/
def pagerReader (p : Pager) : Reader := ⟨p.readPage, p.pageSize, p.committed.pageCount⟩

/-- `Node::branch_child`: the child of the last key not above `key`. -/
def branchChild {α : Type} (f : α) (es : List (Key × α)) (key : Key) : α :=
  child f es (rank key es)

/-- The most bytes a vector or a slice can have. -/
def ISIZE_MAX : Nat := 2 ^ 63 - 1

/-- The walk along an overflow chain, over at most so many pages.  Of a page
    `part` gives the one behind it and the bytes it holds. -/
def overflowLoop (part : PageId → Except Error (PageId × Bytes)) :
    Nat → PageId → Bytes → Except Error (PageId × Bytes)
  | 0, page, out => .ok (page, out)
  | n + 1, page, out =>
      if page = NIL_PAGE then .ok (page, out)
      else
        match part page with
        | .error e => .error e
        | .ok (next, bytes) => overflowLoop part n next (out ++ bytes)

/-- How many pages a value of `len` bytes may take. -/
def maxPages (ps len : Nat) : Nat :=
  max ((len + overflowCapacity ps - 1) / overflowCapacity ps) 1

/-- `read_value` of an overflow reference.  `Vec::with_capacity` takes the length
    as it stands. -/
def readChain (part : PageId → Except Error (PageId × Bytes)) (ps : Nat) (head : PageId)
    (len : Nat) :
    Except Error Bytes :=
  if ISIZE_MAX < len then .error (.panic "capacity overflow")
  else
    match overflowLoop part (maxPages ps len) head [] with
    | .error e => .error e
    | .ok (page, out) =>
        if out.length ≠ len ∨ page ≠ NIL_PAGE then
          .error (.corrupted (some head) "overflow chain length mismatch")
        else .ok out

/-- One page of a chain. -/
def Reader.part (r : Reader) (page : PageId) : Except Error (PageId × Bytes) :=
  match r.read page with
  | .error e => .error e
  | .ok (.overflow next bytes) =>
      if overflowCapacity r.pageSize < bytes.length then
        .error (.corrupted (some page) "overflow page claims impossible length")
      else .ok (next, bytes)
  | .ok _ => .error (.corrupted (some page) "overflow chain hit a non-overflow page")

def readValue (r : Reader) : ValueRef → Except Error Bytes
  | .inline v => .ok v
  | .overflow head len => readChain r.part r.pageSize head len

/-- The value behind what a leaf has for a key. -/
def readFound (r : Reader) : Option ValueRef → Except Error (Option Bytes)
  | none => .ok none
  | some v =>
      match readValue r v with
      | .error e => .error e
      | .ok bytes => .ok (some bytes)

def getLoop (r : Reader) (key : Key) : Nat → PageId → Except Error (Option Bytes)
  | 0, _ => .error .outOfFuel
  | fuel + 1, page =>
      match r.read page with
      | .error e => .error e
      | .ok (.node (.branch f es)) => getLoop r key fuel (branchChild f es key)
      | .ok (.node (.leaf es)) => readFound r (findInLeaf key es)
      | .ok p =>
          match decode page p with
          | .error e => .error e
          | .ok _ => .error (.panic "decode refuses a page that is not a node")

def Reader.get (r : Reader) (root : PageId) (key : Key) : Except Error (Option Bytes) :=
  if root = NIL_PAGE ∨ maxKeyLen r.pageSize < key.length then .ok none
  else getLoop r key r.bound root

/-! ## Writes -/

inductive Insert
  | done (page : PageId)
  | split (left : PageId) (sep : Key) (right : PageId)
  | duplicate
  deriving DecidableEq, Repr

inductive Delete
  | notFound
  | updated (page : PageId)
  | emptied
  deriving DecidableEq, Repr

/-- A read in the middle of a call. -/
def liftRead {α : Type} (x : Except Error α) : BatchM α := fun b =>
  match x with
  | .ok a => .ok a b
  | .error e => .error e b

def allocate (ty : PageType) : BatchM PageId := fun b =>
  let (id, b) := b.allocate ty
  .ok id b

/-- `binary_search_by`: where `key` is or belongs, and whether it is there. -/
def binarySearch {α : Type} (key : Key) (es : List (Key × α)) : Nat × Bool :=
  let i := (es.takeWhile (fun e => decide (e.1 < key))).length
  (i, decide ((es[i]?).map Prod.fst = some key))

theorem binarySearch_le {α : Type} (key : Key) (es : List (Key × α)) :
    (binarySearch key es).1 ≤ es.length :=
  (takeWhile_sublist _).length_le

/-- One more cell, wherever it goes. -/
theorem encodedSize_insertIdx {es : List (Key × ValueRef)} {i : Nat} (hi : i ≤ es.length)
    (key : Key) (v : ValueRef) :
    (leaf (es.insertIdx i (key, v))).encodedSize
      = (leaf es).encodedSize + leafCellSize key v := by
  have hperm := ((perm_insertIdx (key, v) es hi).map
    (fun e : Key × ValueRef => leafCellSize e.1 e.2)).sum_nat
  rw [map_cons, sum_cons] at hperm
  simp only [encodedSize, leafCells, hperm]
  omega

/-- A page about to be changed, decoded: the kept copy when there is one. -/
def loadNode (page : PageId) : BatchM Node := fun b =>
  match AssocList.get page b.nodes with
  | some (n, _) => .ok n { b with nodes := del page b.nodes }
  | none =>
      match b.pageBytes page with
      | .error e => .error e b
      | .ok p =>
          match decode page p with
          | .error e => .error e b
          | .ok n => .ok n b

def Node.pageType : Node → PageType
  | .leaf _ => .leaf
  | .branch _ _ => .branch

/-- The page a node is written to: `old` when the batch owns it, a new one
    otherwise. -/
def writablePage (old : Option PageId) (ty : PageType) : BatchM PageId := fun b =>
  match old with
  | some id => if b.owns id then .ok id b else allocate ty b
  | none => allocate ty b

/-- `encode_into` and keeping the node beside its bytes.  A node that is too
    large runs off the page. -/
def encodeInto (id : PageId) (n : Node) : BatchM Unit := do
  Batch.pageMut id (fun _ => .node n)
  if (← get).pageSize < n.encodedSize then throw (.panic "range end index out of range for slice")
  else modify (Batch.keepNodeSized id n n.encodedSize)

/-- Serialize a node, reusing `old` when this batch already owns it. -/
def writeNode (old : Option PageId) (n : Node) : BatchM PageId := do
  let id ← writablePage old (Node.pageType n)
  encodeInto id n
  return id

/-- `value.chunks(chunk)`; the length of the value is fuel enough. -/
def chunks (n : Nat) : Nat → Bytes → List Bytes
  | 0, _ => []
  | _ + 1, [] => []
  | fuel + 1, x :: xs => (x :: xs).take n :: chunks n fuel ((x :: xs).drop n)

def allocateEach (ty : PageType) : List Bytes → BatchM (List PageId)
  | [] => pure []
  | _ :: rest => do
      let id ← allocate ty
      let ids ← allocateEach ty rest
      return id :: ids

/-- Each part on its page, linked to the page of the next part. -/
def writeParts : List Bytes → List PageId → BatchM Unit
  | part :: parts, id :: ids => do
      Batch.pageMut id (fun _ => .overflow (ids.headD NIL_PAGE) part)
      writeParts parts ids
  | _, _ => pure ()

def writeOverflow (value : Bytes) : BatchM ValueRef := do
  let b ← get
  let parts := chunks (overflowCapacity b.pageSize) value.length value
  let ids ← allocateEach .overflow parts
  writeParts parts ids
  return .overflow (ids.headD NIL_PAGE) value.length

/-- The first cell at which the bytes so far reach half of the total; how many
    cells that is, or one less than there are. -/
def splitPoint (total : Nat) : Nat → Nat → List (Key × ValueRef) → Nat
  | i, _, [] => i - 1
  | i, acc, (k, v) :: rest =>
      if total / 2 ≤ acc + leafCellSize k v then i + 1
      else splitPoint total (i + 1) (acc + leafCellSize k v) rest

/-- The two writes of a split. -/
def writeHalves (old : PageId) (left : Node) (sep : Key) (right : Node) : BatchM Insert := do
  let l ← writeNode (some old) left
  let r ← writeNode none right
  return .split l sep r

def finishLeaf (old : PageId) (es : List (Key × ValueRef)) : BatchM Insert := do
  if (leaf es).encodedSize ≤ (← get).pageSize then
    return .done (← writeNode (some old) (.leaf es))
  -- `clamp` asserts that its bounds are in order
  else if es.length < 2 then throw (.panic "assertion failed: min <= max")
  else
    let splitAt := max 1 (min (splitPoint (leafCells es) 0 0 es) (es.length - 1))
    match es.drop splitAt with
    | [] => throw (.panic "index out of bounds")
    | (sep, v) :: rest =>
        writeHalves old (.leaf (es.take splitAt)) sep (.leaf ((sep, v) :: rest))

def finishBranch (old : PageId) (f : PageId) (es : List (Key × PageId)) :
    BatchM Insert := do
  if (branch f es).encodedSize ≤ (← get).pageSize then
    return .done (← writeNode (some old) (.branch f es))
  else if es.length < 3 then throw (.panic "assertion failed: min <= max")
  else
    let mid := max 1 (min (es.length / 2) (es.length - 2))
    match es.drop mid with
    | [] => throw (.panic "index out of bounds")
    | (sep, rightFirst) :: rest =>
        writeHalves old (.branch f (es.take mid)) sep (.branch rightFirst rest)

/-- What comes back from the child at `idx` goes into the branch. -/
def graft (page : PageId) (f : PageId) (es : List (Key × PageId)) (idx : Nat) :
    Insert → BatchM Insert
  | .duplicate => pure .duplicate
  | .done c => do
      return .done (← writeNode (some page)
        (.branch (setChild f es idx c).1 (setChild f es idx c).2))
  | .split left sep right =>
      finishBranch page (setChild f es idx left).1
        ((setChild f es idx left).2.insertIdx idx (sep, right))

/-- The child that a descent goes to, without decoding the branch; `none` on
    a page that is not one. -/
def descent (page : PageId) (key : Key) (b : Batch) : Except Error (Option PageId) :=
  match b.keptNode page with
  | some (.branch f es) => .ok (some (branchChild f es key))
  | _ =>
      match b.pageBytes page with
      | .error e => .error e
      | .ok (.node (.branch f es)) => .ok (some (branchChild f es key))
      | .ok _ => .ok none

/-- The new cell, written into the page among the cells that are there. -/
def insertCell (i : Nat) (key : Key) (v : ValueRef) : Page → Page
  | .node (.leaf es) => .node (.leaf (es.insertIdx i (key, v)))
  | p => p

/-- A leaf that the batch owns and keeps decoded takes the new cell in place,
    when it has room; `none` sends the caller the long way. -/
def insertInPlace (page : PageId) (key : Key) (v : ValueRef) (unique : Bool) :
    BatchM (Option Insert) := fun b =>
  match AssocList.get page b.nodes, AssocList.get page b.dirty with
  | some (.leaf es, used), some p =>
      let b := b.record page
      match binarySearch key es with
      | (_, true) => if unique then .ok (some .duplicate) b else .ok none b
      | (i, false) =>
          if used + leafCellSize key v ≤ b.pageSize then
            .ok (some (.done page)) { b with
              dirty := put page (insertCell i key v p) b.dirty
              nodes := put page
                (.leaf (es.insertIdx i (key, v)), used + leafCellSize key v) b.nodes }
          else .ok none b
  | some _, some _ => .ok none (b.record page)
  | _, _ => .ok none b

/-- A decoded leaf takes the entry and is written back. -/
def updateLeaf (page : PageId) (key : Key) (v : ValueRef) (unique : Bool)
    (es : List (Key × ValueRef)) : BatchM Insert :=
  match binarySearch key es with
  | (i, true) =>
      if unique then pure .duplicate else finishLeaf page (es.modify i (fun e => (e.1, v)))
  | (i, false) => finishLeaf page (es.insertIdx i (key, v))

def insertRec (key : Key) (v : ValueRef) (unique : Bool) : Nat → PageId → BatchM Insert
  | 0, _ => throw .outOfFuel
  | fuel + 1, page => do
      match ← liftRead (descent page key (← get)) with
      | some child =>
          let result ← insertRec key v unique fuel child
          -- an unchanged child changes nothing above it
          if result = .duplicate then return .duplicate
          else if result = .done child then return .done page
          else
            match ← loadNode page with
            | .branch f es => graft page f es (rank key es) result
            | .leaf _ => throw (.panic "checked above")
      | none =>
          match ← insertInPlace page key v unique with
          | some r => return r
          | none =>
              match ← loadNode page with
              | .leaf es => updateLeaf page key v unique es
              | .branch f es =>
                  let result ← insertRec key v unique fuel (branchChild f es key)
                  graft page f es (rank key es) result

/-- The root above what the insertion leaves. -/
def newRoot : Insert → BatchM PageId
  | .duplicate => throw (.panic "not asked for")
  | .done root => pure root
  | .split left sep right => writeNode none (.branch left [(sep, right)])

/-- The two refusals every insertion starts with. -/
def checkKey (ps : Nat) (key : Key) : BatchM Unit :=
  if key.length = 0 then throw (.invalidArgument "keys must not be empty")
  else if maxKeyLen ps < key.length then
    throw (.invalidArgument "key exceeds max_key_len for this page size")
  else pure ()

/-- A value too large to live inline goes to an overflow chain. -/
def placeValue (value : Bytes) : BatchM ValueRef := do
  if inlineMax (← get).pageSize < value.length then writeOverflow value
  else return .inline value

/-- The tree below `root` takes the entry; an empty tree becomes a leaf. -/
def insertAtRoot (root : PageId) (key : Key) (v : ValueRef) : BatchM PageId := do
  if root = NIL_PAGE then writeNode none (.leaf [(key, v)])
  else newRoot (← insertRec key v false (← get).nextPage root)

def put (root : PageId) (key : Key) (value : Bytes) : BatchM PageId := do
  checkKey (← get).pageSize key
  let v ← placeValue value
  insertAtRoot root key v

/-- The end of `put_unique`: a duplicate leaves the tree alone. -/
def unlessDuplicate (root : PageId) : Insert → BatchM (PageId × Bool)
  | .duplicate => return (root, false)
  | result => return (← newRoot result, true)

def putUnique (root : PageId) (key : Key) (value : Bytes) : BatchM (PageId × Bool) := do
  let b ← get
  -- overflow pages are written before the descent, so a large value asks first
  if inlineMax b.pageSize < value.length then
    match ← liftRead ((batchReader b).get root key) with
    | some _ => return (root, false)
    | none => return (← put root key value, true)
  else
    checkKey b.pageSize key
    if root = NIL_PAGE then return (← put root key value, true)
    else
      unlessDuplicate root (← insertRec key (.inline value) true b.nextPage root)

/-! ## Deletes -/

/-- Two neighbours as one node; `none` when they are of different kinds. -/
def mergeNodes (sep : Key) : Node → Node → Option Node
  | .leaf l, .leaf r => some (.leaf (l ++ r))
  | .branch lf l, .branch rf r => some (.branch lf (l ++ (sep, rf) :: r))
  | _, _ => none

def decodePage (page : PageId) : BatchM Node := fun b =>
  match b.pageBytes page with
  | .error e => .error e b
  | .ok p => liftRead (decode page p) b

/-- The child at `li` and its right neighbour, merged when the pair leaves
    headroom in one page. -/
def mergePair (f : PageId) (es : List (Key × PageId)) (li : Nat) :
    BatchM (PageId × List (Key × PageId)) := do
  match es[li]? with
  | none => throw (.panic "index out of bounds")
  | some (sep, rightPage) =>
      let left ← decodePage (child f es li)
      let right ← decodePage rightPage
      match mergeNodes sep left right with
      | none => throw (.corrupted (some (child f es li)) "sibling nodes of different kinds")
      | some merged =>
          if (← get).pageSize * 7 / 8 < merged.encodedSize then return (f, es)
          else
            let newLeft ← writeNode (some (child f es li)) merged
            return ((setChild f es li newLeft).1,
              (setChild f es li newLeft).2.eraseIdx li)

/-- Which pair of children an underfull child at `idx` is merged in: the right
    neighbour is preferred, the last child merges leftward. -/
def mergeAt (n idx : Nat) : Nat := if idx < n then idx else idx - 1

def mergeUnderfullChild (f : PageId) (es : List (Key × PageId)) (idx : Nat) :
    BatchM (PageId × List (Key × PageId)) := do
  if es.isEmpty then return (f, es)
  else
    let child ← decodePage (child f es idx)
    if (← get).pageSize / 4 ≤ child.encodedSize then return (f, es)
    else mergePair f es (mergeAt es.length idx)

/-- A branch that lost a child or changed one: a single child takes its
    place. -/
def settleBranch (page : PageId) (f : PageId) (es : List (Key × PageId)) : BatchM Delete := do
  if es.isEmpty then return .updated f
  else return .updated (← writeNode (some page) (.branch f es))

/-- What comes back from the child at `idx` goes into the branch. -/
def prune (page : PageId) (f : PageId) (es : List (Key × PageId)) (idx : Nat) :
    Delete → BatchM Delete
  | .notFound => pure .notFound
  | .updated c => do
      let (f', es') ← mergeUnderfullChild (setChild f es idx c).1
        (setChild f es idx c).2 idx
      settleBranch page f' es'
  | .emptied =>
      match idx, es with
      | 0, [] => pure .emptied
      | 0, (_, c) :: rest => settleBranch page c rest
      | i + 1, es => settleBranch page f (es.eraseIdx i)

def deleteRec (key : Key) : Nat → PageId → BatchM Delete
  | 0, _ => throw .outOfFuel
  | fuel + 1, page => do
      match ← loadNode page with
      | .leaf es =>
          match binarySearch key es with
          | (_, false) => return .notFound
          | (i, true) =>
              if (es.eraseIdx i).isEmpty then return .emptied
              else return .updated (← writeNode (some page) (.leaf (es.eraseIdx i)))
      | .branch f es =>
          let result ← deleteRec key fuel (branchChild f es key)
          prune page f es (rank key es) result

def remove (root : PageId) (key : Key) : BatchM (PageId × Bool) := do
  let b ← get
  if root = NIL_PAGE ∨ maxKeyLen b.pageSize < key.length then return (root, false)
  else
    match ← deleteRec key b.nextPage root with
    | .notFound => return (root, false)
    | .updated newRoot => return (newRoot, true)
    | .emptied => return (NIL_PAGE, true)

end QuantyBtree
