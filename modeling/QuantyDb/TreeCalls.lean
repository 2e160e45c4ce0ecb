import QuantyDb.BtreeModel

/-! # The tree over any store of pages

    What `btree.rs` asks of a write batch is little: the child a descent goes
    to, a node to change, a page to write it to, a leaf that takes a cell in
    place.  `PageOps` is that list over any state, and the calls on a tree are
    written against it.

    Over pages that are kept decoded the calls are those of the page model
    (`put_decoded` and its fellows); over pages that are bytes they are the
    calls as the file sees them.  What is proved of the calls from the list is
    proved of both. -/

namespace QuantyTreeCalls

open QuantyKey QuantyPage QuantyPager QuantyBtree Fan

/-- What a tree asks of the store of its pages. -/
structure PageOps (σ : Type) where
  pageSize : σ → Nat
  /-- How many page ids there are; no path of distinct pages is longer. -/
  nextPage : σ → Nat
  get : PageId → Key → σ → Except Error (Option Bytes)
  descent : PageId → Key → σ → Except Error (Option PageId)
  owns : PageId → σ → Bool
  loadNode : PageId → EStateM Error σ Node
  decodePage : PageId → EStateM Error σ Node
  allocate : PageType → EStateM Error σ PageId
  encodeInto : PageId → Node → EStateM Error σ Unit
  writePart : PageId → PageId → Bytes → EStateM Error σ Unit
  insertInPlace : PageId → Key → ValueRef → Bool → EStateM Error σ (Option Insert)

section Calls

variable {σ : Type} (P : PageOps σ)

/-- A read in the middle of a call. -/
def liftRead {α : Type} (x : Except Error α) : EStateM Error σ α := fun s =>
  match x with
  | .ok a => .ok a s
  | .error e => .error e s

def writablePage (old : Option PageId) (ty : PageType) : EStateM Error σ PageId := fun s =>
  match old with
  | some id => if P.owns id s then .ok id s else P.allocate ty s
  | none => P.allocate ty s

def writeNode (old : Option PageId) (n : Node) : EStateM Error σ PageId := do
  let id ← writablePage P old (Node.pageType n)
  P.encodeInto id n
  return id

def allocateEach (ty : PageType) : List Bytes → EStateM Error σ (List PageId)
  | [] => pure []
  | _ :: rest => do
      let id ← P.allocate ty
      let ids ← allocateEach ty rest
      return id :: ids

def writeParts : List Bytes → List PageId → EStateM Error σ Unit
  | part :: parts, id :: ids => do
      P.writePart id (ids.headD NIL_PAGE) part
      writeParts parts ids
  | _, _ => pure ()

def writeOverflow (value : Bytes) : EStateM Error σ ValueRef := do
  let s ← get
  let parts := chunks (overflowCapacity (P.pageSize s)) value.length value
  let ids ← allocateEach P .overflow parts
  writeParts P parts ids
  return .overflow (ids.headD NIL_PAGE) value.length

def writeHalves (old : PageId) (left : Node) (sep : Key) (right : Node) :
    EStateM Error σ Insert := do
  let l ← writeNode P (some old) left
  let r ← writeNode P none right
  return .split l sep r

def finishLeaf (old : PageId) (es : List (Key × ValueRef)) : EStateM Error σ Insert := do
  if (Node.leaf es).encodedSize ≤ P.pageSize (← get) then
    return .done (← writeNode P (some old) (.leaf es))
  else if es.length < 2 then throw (.panic "assertion failed: min <= max")
  else
    let splitAt := max 1 (min (splitPoint (leafCells es) 0 0 es) (es.length - 1))
    match es.drop splitAt with
    | [] => throw (.panic "index out of bounds")
    | (sep, v) :: rest =>
        writeHalves P old (.leaf (es.take splitAt)) sep (.leaf ((sep, v) :: rest))

def finishBranch (old : PageId) (f : PageId) (es : List (Key × PageId)) :
    EStateM Error σ Insert := do
  if (Node.branch f es).encodedSize ≤ P.pageSize (← get) then
    return .done (← writeNode P (some old) (.branch f es))
  else if es.length < 3 then throw (.panic "assertion failed: min <= max")
  else
    let mid := max 1 (min (es.length / 2) (es.length - 2))
    match es.drop mid with
    | [] => throw (.panic "index out of bounds")
    | (sep, rightFirst) :: rest =>
        writeHalves P old (.branch f (es.take mid)) sep (.branch rightFirst rest)

def graft (page : PageId) (f : PageId) (es : List (Key × PageId)) (idx : Nat) :
    Insert → EStateM Error σ Insert
  | .duplicate => pure .duplicate
  | .done c => do
      return .done (← writeNode P (some page)
        (.branch (setChild f es idx c).1 (setChild f es idx c).2))
  | .split left sep right =>
      finishBranch P page (setChild f es idx left).1
        ((setChild f es idx left).2.insertIdx idx (sep, right))

def updateLeaf (page : PageId) (key : Key) (v : ValueRef) (unique : Bool)
    (es : List (Key × ValueRef)) : EStateM Error σ Insert :=
  match binarySearch key es with
  | (i, true) =>
      if unique then pure .duplicate else finishLeaf P page (es.modify i (fun e => (e.1, v)))
  | (i, false) => finishLeaf P page (es.insertIdx i (key, v))

def insertRec (key : Key) (v : ValueRef) (unique : Bool) :
    Nat → PageId → EStateM Error σ Insert
  | 0, _ => throw .outOfFuel
  | fuel + 1, page => do
      match ← liftRead (P.descent page key (← get)) with
      | some child =>
          let result ← insertRec key v unique fuel child
          if result = .duplicate then return .duplicate
          else if result = .done child then return .done page
          else
            match ← P.loadNode page with
            | .branch f es => graft P page f es (rank key es) result
            | .leaf _ => throw (.panic "checked above")
      | none =>
          match ← P.insertInPlace page key v unique with
          | some r => return r
          | none =>
              match ← P.loadNode page with
              | .leaf es => updateLeaf P page key v unique es
              | .branch f es =>
                  let result ← insertRec key v unique fuel (branchChild f es key)
                  graft P page f es (rank key es) result

def newRoot : Insert → EStateM Error σ PageId
  | .duplicate => throw (.panic "not asked for")
  | .done root => pure root
  | .split left sep right => writeNode P none (.branch left [(sep, right)])

def checkKey (ps : Nat) (key : Key) : EStateM Error σ Unit :=
  if key.length = 0 then throw (.invalidArgument "keys must not be empty")
  else if maxKeyLen ps < key.length then
    throw (.invalidArgument "key exceeds max_key_len for this page size")
  else pure ()

def placeValue (value : Bytes) : EStateM Error σ ValueRef := do
  if inlineMax (P.pageSize (← get)) < value.length then writeOverflow P value
  else return .inline value

def insertAtRoot (root : PageId) (key : Key) (v : ValueRef) : EStateM Error σ PageId := do
  if root = NIL_PAGE then writeNode P none (.leaf [(key, v)])
  else newRoot P (← insertRec P key v false (P.nextPage (← get)) root)

def put (root : PageId) (key : Key) (value : Bytes) : EStateM Error σ PageId := do
  checkKey (P.pageSize (← get)) key
  let v ← placeValue P value
  insertAtRoot P root key v

def unlessDuplicate (root : PageId) : Insert → EStateM Error σ (PageId × Bool)
  | .duplicate => return (root, false)
  | result => return (← newRoot P result, true)

def putUnique (root : PageId) (key : Key) (value : Bytes) :
    EStateM Error σ (PageId × Bool) := do
  let s ← get
  if inlineMax (P.pageSize s) < value.length then
    match ← liftRead (P.get root key s) with
    | some _ => return (root, false)
    | none => return (← put P root key value, true)
  else
    checkKey (P.pageSize s) key
    if root = NIL_PAGE then return (← put P root key value, true)
    else
      unlessDuplicate P root (← insertRec P key (.inline value) true (P.nextPage s) root)

def mergePair (f : PageId) (es : List (Key × PageId)) (li : Nat) :
    EStateM Error σ (PageId × List (Key × PageId)) := do
  match es[li]? with
  | none => throw (.panic "index out of bounds")
  | some (sep, rightPage) =>
      let left ← P.decodePage (child f es li)
      let right ← P.decodePage rightPage
      match mergeNodes sep left right with
      | none => throw (.corrupted (some (child f es li)) "sibling nodes of different kinds")
      | some merged =>
          if P.pageSize (← get) * 7 / 8 < merged.encodedSize then return (f, es)
          else
            let newLeft ← writeNode P (some (child f es li)) merged
            return ((setChild f es li newLeft).1,
              (setChild f es li newLeft).2.eraseIdx li)

def mergeUnderfullChild (f : PageId) (es : List (Key × PageId)) (idx : Nat) :
    EStateM Error σ (PageId × List (Key × PageId)) := do
  if es.isEmpty then return (f, es)
  else
    let child ← P.decodePage (child f es idx)
    if P.pageSize (← get) / 4 ≤ child.encodedSize then return (f, es)
    else mergePair P f es (mergeAt es.length idx)

def settleBranch (page : PageId) (f : PageId) (es : List (Key × PageId)) :
    EStateM Error σ Delete := do
  if es.isEmpty then return .updated f
  else return .updated (← writeNode P (some page) (.branch f es))

def prune (page : PageId) (f : PageId) (es : List (Key × PageId)) (idx : Nat) :
    Delete → EStateM Error σ Delete
  | .notFound => pure .notFound
  | .updated c => do
      let (f', es') ← mergeUnderfullChild P (setChild f es idx c).1
        (setChild f es idx c).2 idx
      settleBranch P page f' es'
  | .emptied =>
      match idx, es with
      | 0, [] => pure .emptied
      | 0, (_, c) :: rest => settleBranch P page c rest
      | i + 1, es => settleBranch P page f (es.eraseIdx i)

def deleteRec (key : Key) : Nat → PageId → EStateM Error σ Delete
  | 0, _ => throw .outOfFuel
  | fuel + 1, page => do
      match ← P.loadNode page with
      | .leaf es =>
          match binarySearch key es with
          | (_, false) => return .notFound
          | (i, true) =>
              if (es.eraseIdx i).isEmpty then return .emptied
              else return .updated (← writeNode P (some page) (.leaf (es.eraseIdx i)))
      | .branch f es =>
          let result ← deleteRec key fuel (branchChild f es key)
          prune P page f es (rank key es) result

def remove (root : PageId) (key : Key) : EStateM Error σ (PageId × Bool) := do
  let s ← get
  if root = NIL_PAGE ∨ maxKeyLen (P.pageSize s) < key.length then return (root, false)
  else
    match ← deleteRec P key (P.nextPage s) root with
    | .notFound => return (root, false)
    | .updated newRoot => return (newRoot, true)
    | .emptied => return (NIL_PAGE, true)

end Calls

/-! ## Over decoded pages -/

/-- A batch whose pages are kept as what they decode to. -/
def decoded : PageOps Batch where
  pageSize := Batch.pageSize
  nextPage b := b.nextPage
  get root key b := (batchReader b).get root key
  descent := descent
  owns id b := b.owns id
  loadNode := loadNode
  decodePage := decodePage
  allocate := allocate
  encodeInto := encodeInto
  writePart id next part := Batch.pageMut id (fun _ => .overflow next part)
  insertInPlace := insertInPlace

theorem writeParts_decoded (parts : List Bytes) (ids : List PageId) :
    writeParts decoded parts ids = QuantyBtree.writeParts parts ids := by
  induction parts generalizing ids with
  | nil => rfl
  | cons part parts ih =>
      cases ids with
      | nil => rfl
      | cons id ids =>
          rw [writeParts, QuantyBtree.writeParts]
          simp only [ih]
          rfl

theorem allocateEach_decoded (ty : PageType) (parts : List Bytes) :
    allocateEach decoded ty parts = QuantyBtree.allocateEach ty parts := by
  induction parts with
  | nil => rfl
  | cons part parts ih =>
      rw [allocateEach, QuantyBtree.allocateEach]
      simp only [ih]
      rfl

theorem placeValue_decoded (value : Bytes) :
    placeValue decoded value = QuantyBtree.placeValue value := by
  rw [placeValue, QuantyBtree.placeValue, writeOverflow, QuantyBtree.writeOverflow]
  simp only [allocateEach_decoded, writeParts_decoded]
  rfl

theorem insertRec_decoded (key : Key) (v : ValueRef) (unique : Bool) (fuel : Nat)
    (page : PageId) :
    insertRec decoded key v unique fuel page = QuantyBtree.insertRec key v unique fuel page := by
  induction fuel generalizing page with
  | zero => rfl
  | succ fuel ih =>
      rw [insertRec, QuantyBtree.insertRec]
      simp only [ih]
      rfl

theorem deleteRec_decoded (key : Key) (fuel : Nat) (page : PageId) :
    deleteRec decoded key fuel page = QuantyBtree.deleteRec key fuel page := by
  induction fuel generalizing page with
  | zero => rfl
  | succ fuel ih =>
      rw [deleteRec, QuantyBtree.deleteRec]
      simp only [ih]
      rfl

/-- **THE CALLS OVER DECODED PAGES** are those of the page model. -/
theorem put_decoded (root : PageId) (key : Key) (value : Bytes) :
    put decoded root key value = QuantyBtree.put root key value := by
  rw [put, QuantyBtree.put]
  simp only [placeValue_decoded, insertAtRoot, insertRec_decoded]
  rfl

theorem putUnique_decoded (root : PageId) (key : Key) (value : Bytes) :
    putUnique decoded root key value = QuantyBtree.putUnique root key value := by
  rw [putUnique, QuantyBtree.putUnique]
  simp only [put_decoded, insertRec_decoded]
  rfl

theorem remove_decoded (root : PageId) (key : Key) :
    remove decoded root key = QuantyBtree.remove root key := by
  rw [remove, QuantyBtree.remove]
  simp only [deleteRec_decoded]
  rfl

end QuantyTreeCalls
