import QuantyDb.CodecModel

/-! # Nodes as bytes

    `node.rs` reads a page in two ways.  `Node::decode` builds the node and
    checks all of it; the in-place readers walk the cells of a page by offset
    and stop where they may.  Both are here as the source has them, over the
    bytes of a page, with their errors.

    Slices that would run off a page are panics of the source, and so is an
    `expect` that fails. -/

namespace QuantyNode

open QuantyKey QuantyPage QuantyCodec LittleEndian

/-! ## The header -/

/-- Every kind of page that the type byte can name. -/
inductive PageKind
  | metaSlot | branch | leaf | overflow | freeList | blob | commit
  deriving DecidableEq, Repr

/-- `PageType::try_from`. -/
def PageKind.ofByte (v : UInt8) : Option PageKind :=
  [.metaSlot, .branch, .leaf, .overflow, .freeList, .blob, .commit][v.toNat]?

/-- `{:?}`. -/
def PageKind.debug : PageKind → String
  | .metaSlot => "Meta"
  | .branch => "Branch"
  | .leaf => "Leaf"
  | .overflow => "Overflow"
  | .freeList => "FreeList"
  | .blob => "Blob"
  | .commit => "Commit"

def pageType (buf : Bytes) : Except Error PageKind :=
  match PageKind.ofByte (buf.getD 4 0) with
  | some kind => .ok kind
  | none => .error (.corrupted none ("unknown page type " ++ toString (buf.getD 4 0).toNat))

/-- The entry count of the header. -/
def count (buf : Bytes) : Nat := ofLe (slice 6 2 buf)

/-! ## Fields -/

/-- A little-endian number of `w` bytes and what follows it. -/
def readLe (w : Nat) (buf : Bytes) : Option (Nat × Bytes) :=
  if buf.length < w then none else some (ofLe (buf.take w), buf.drop w)

def readU32 (buf : Bytes) : Option (Nat × Bytes) := readLe 4 buf

def readU64 (buf : Bytes) : Option (Nat × Bytes) := readLe 8 buf

/-- A cell's key, the flag beside it, and what follows. -/
def readKeyRef (buf : Bytes) : Option (Key × UInt8 × Bytes) :=
  if buf.length < 3 then none
  else
    let klen := ofLe (buf.take 2)
    let rest := buf.drop 3
    if rest.length < klen then none else some (rest.take klen, buf.getD 2 0, rest.drop klen)

/-- The same, with the key copied. -/
def readKey (buf : Bytes) : Option (Key × UInt8 × Bytes) := readKeyRef buf

/-! ## Decoding -/

def bad (id : PageId) (what : String) : Error := .corrupted (some id) ("node decode: " ++ what)

/-- One round of the loop over a leaf. -/
def readLeafCell (id : PageId) (cur : Bytes) : Except Error ((Key × ValueRef) × Bytes) :=
  match readKey cur with
  | none => .error (bad id "truncated cell")
  | some (key, vflag, cur) =>
      if vflag = VFLAG_INLINE then
        match readU32 cur with
        | none => .error (bad id "truncated vlen")
        | some (len, rest) =>
            if rest.length < len then .error (bad id "truncated value")
            else .ok ((key, .inline (rest.take len)), rest.drop len)
      else if vflag = VFLAG_OVERFLOW then
        match readU64 cur with
        | none => .error (bad id "truncated ovf")
        | some (head, rest) =>
            match readU64 rest with
            | none => .error (bad id "truncated ovf")
            | some (len, rest) => .ok ((key, .overflow head len), rest)
      else .error (bad id "bad value flag")

/-- One round of the loop over a branch. -/
def readBranchCell (id : PageId) (cur : Bytes) : Except Error ((Key × PageId) × Bytes) :=
  match readKey cur with
  | none => .error (bad id "truncated cell")
  | some (key, childHi, rest) =>
      if childHi ≠ 0 then .error (bad id "bad branch flag")
      else
        match readU64 rest with
        | none => .error (bad id "truncated child")
        | some (child, rest) => .ok ((key, child), rest)

/-- `for _ in 0..count`, each round reading a cell off the front. -/
def readCells {α : Type} (cell : Bytes → Except Error (α × Bytes)) :
    Nat → Bytes → Except Error (List α)
  | 0, _ => .ok []
  | n + 1, cur =>
      match cell cur with
      | .error e => .error e
      | .ok (a, rest) => (readCells cell n rest).map (a :: ·)

/-- `Node::decode`. -/
def decode (buf : Bytes) (id : PageId) : Except Error Node :=
  match pageType buf with
  | .error e => .error e
  | .ok .leaf =>
      match readCells (readLeafCell id) (count buf) (buf.drop PAGE_HEADER_LEN) with
      | .error e => .error e
      | .ok entries =>
          if ascending entries then .ok (.leaf entries)
          else .error (bad id "leaf keys not strictly sorted")
  | .ok .branch =>
      match readU64 (buf.drop PAGE_HEADER_LEN) with
      | none => .error (bad id "truncated")
      | some (firstChild, cur) =>
          match readCells (readBranchCell id) (count buf) cur with
          | .error e => .error e
          | .ok entries =>
              if ascending entries then .ok (.branch firstChild entries)
              else .error (bad id "branch keys not strictly sorted")
  | .ok other => .error (bad id ("expected a btree node, found " ++ other.debug))

/-! ## Leaves in place -/

/-- Where the value of a leaf cell is. -/
inductive CellValue
  | inline (start stop : Nat)
  | overflow (head : PageId) (len : Nat)
  deriving DecidableEq, Repr

/-- A cell read in place: the range of its key, where its value is, and where
    the next cell starts. -/
structure LeafCell where
  key : Nat × Nat
  value : CellValue
  next : Nat
  deriving DecidableEq, Repr

def leafCellAt (buf : Bytes) (off : Nat) (id : PageId) : Except Error LeafCell :=
  if buf.length < off then .error (.panic "range start index out of range for slice")
  else
    match readKeyRef (buf.drop off) with
    | none => .error (bad id "truncated cell")
    | some (key, vflag, rest) =>
        let keyStart := off + 3
        let keyEnd := keyStart + key.length
        if vflag = VFLAG_INLINE then
          match readU32 rest with
          | none => .error (bad id "truncated vlen")
          | some (len, rest) =>
              if rest.length < len then .error (bad id "truncated value")
              else
                let start := keyEnd + 4
                .ok ⟨(keyStart, keyEnd), .inline start (start + len), start + len⟩
        else if vflag = VFLAG_OVERFLOW then
          match readU64 rest with
          | none => .error (bad id "truncated ovf")
          | some (head, rest) =>
              match readU64 rest with
              | none => .error (bad id "truncated ovf")
              | some (len, _) => .ok ⟨(keyStart, keyEnd), .overflow head len, keyEnd + 16⟩
        else .error (bad id "bad value flag")

/-- `buf[s..e]`. -/
def range (buf : Bytes) (r : Nat × Nat) : Bytes := slice r.1 (r.2 - r.1) buf

/-- `buf[s..e]`, to be compared as a key. -/
def keyIn (buf : Bytes) (r : Nat × Nat) : Key := range buf r

def findLoop (buf : Bytes) (id : PageId) (key : Key) : Nat → Nat → Except Error (Option CellValue)
  | 0, _ => .ok none
  | n + 1, off =>
      match leafCellAt buf off id with
      | .error e => .error e
      | .ok cell =>
          match compare (keyIn buf cell.key) key with
          | .lt => findLoop buf id key n cell.next
          | .eq => .ok (some cell.value)
          | .gt => .ok none

def findInLeaf (buf : Bytes) (id : PageId) (key : Key) : Except Error (Option CellValue) :=
  findLoop buf id key (count buf) PAGE_HEADER_LEN

def checkLeafLoop (buf : Bytes) (id : PageId) :
    Nat → Nat → Option (Nat × Nat) → Except Error Unit
  | 0, _, _ => .ok ()
  | n + 1, off, prev =>
      match leafCellAt buf off id with
      | .error e => .error e
      | .ok cell =>
          if prev.any (fun p => decide (keyIn buf cell.key ≤ keyIn buf p)) then
            .error (bad id "leaf keys not strictly sorted")
          else checkLeafLoop buf id n cell.next (some cell.key)

def checkLeaf (buf : Bytes) (id : PageId) : Except Error Nat :=
  (checkLeafLoop buf id (count buf) PAGE_HEADER_LEN none).map (fun _ => count buf)

/-- The cells of a leaf one after another, from an offset on. -/
def leafCellsFrom (buf : Bytes) (id : PageId) : Nat → Nat → Except Error (List LeafCell)
  | 0, _ => .ok []
  | n + 1, off =>
      match leafCellAt buf off id with
      | .error e => .error e
      | .ok cell => (leafCellsFrom buf id n cell.next).map (cell :: ·)

/-! ## Branches in place -/

def branchScanBad (id : PageId) (what : String) : Error :=
  .corrupted (some id) ("branch scan: " ++ what)

def branchChildLoop (id : PageId) (key : Key) : Nat → Bytes → PageId → Except Error PageId
  | 0, _, child => .ok child
  | n + 1, cur, child =>
      match readKeyRef cur with
      | none => .error (branchScanBad id "truncated cell")
      | some (cellKey, flag, rest) =>
          if flag ≠ 0 then .error (branchScanBad id "bad branch flag")
          else
            match readU64 rest with
            | none => .error (branchScanBad id "truncated child")
            | some (next, rest) =>
                if key < cellKey then .ok child else branchChildLoop id key n rest next

/-- `Node::branch_child`. -/
def branchChild (buf : Bytes) (id : PageId) (key : Key) : Except Error PageId :=
  match readU64 (buf.drop PAGE_HEADER_LEN) with
  | none => .error (branchScanBad id "truncated")
  | some (firstChild, cur) => branchChildLoop id key (count buf) cur firstChild

def checkBranchLoop (id : PageId) : Nat → Bytes → Option Key → Except Error Unit
  | 0, _, _ => .ok ()
  | n + 1, cur, prev =>
      match readKeyRef cur with
      | none => .error (bad id "truncated cell")
      | some (key, flag, rest) =>
          if flag ≠ 0 then .error (bad id "bad branch flag")
          else
            match readU64 rest with
            | none => .error (bad id "truncated child")
            | some (_, rest) =>
                if prev.any (fun p => decide (key ≤ p)) then
                  .error (bad id "branch keys not strictly sorted")
                else checkBranchLoop id n rest (some key)

def checkBranch (buf : Bytes) (id : PageId) : Except Error (PageId × Nat) :=
  match readU64 (buf.drop PAGE_HEADER_LEN) with
  | none => .error (bad id "truncated")
  | some (firstChild, cur) =>
      (checkBranchLoop id (count buf) cur none).map (fun _ => (firstChild, count buf))

def CHECKED_BRANCH : Error := .panic "checked branch"

/-- `&rest[8..]`. -/
def skipChild (rest : Bytes) : Except Error Bytes :=
  if rest.length < 8 then .error (.panic "range start index out of range for slice")
  else .ok (rest.drop 8)

def branchRankLoop (key : Key) : Nat → Bytes → Nat → Except Error Nat
  | 0, _, rank => .ok rank
  | n + 1, cur, rank =>
      match readKeyRef cur with
      | none => .error CHECKED_BRANCH
      | some (cellKey, _, rest) =>
          if key < cellKey then .ok rank
          else
            match skipChild rest with
            | .error e => .error e
            | .ok cur => branchRankLoop key n cur (rank + 1)

def branchRank (buf : Bytes) (key : Key) : Except Error Nat :=
  if buf.length < PAGE_HEADER_LEN + 8 then
    .error (.panic "range start index out of range for slice")
  else branchRankLoop key (count buf) (buf.drop (PAGE_HEADER_LEN + 8)) 0

/-- `for _ in 0..idx - 1`, and then the child of the cell it stops at. -/
def branchChildAtLoop : Nat → Bytes → Except Error PageId
  | 0, cur =>
      match readKeyRef cur with
      | none => .error CHECKED_BRANCH
      | some (_, _, rest) =>
          match readU64 rest with
          | none => .error CHECKED_BRANCH
          | some (child, _) => .ok child
  | n + 1, cur =>
      match readKeyRef cur with
      | none => .error CHECKED_BRANCH
      | some (_, _, rest) =>
          match skipChild rest with
          | .error e => .error e
          | .ok cur => branchChildAtLoop n cur

def branchChildAt (buf : Bytes) (idx : Nat) : Except Error PageId :=
  match readU64 (buf.drop PAGE_HEADER_LEN) with
  | none => .error CHECKED_BRANCH
  | some (firstChild, cur) =>
      match idx with
      | 0 => .ok firstChild
      | i + 1 => branchChildAtLoop i cur

end QuantyNode
