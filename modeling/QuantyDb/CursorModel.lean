import QuantyDb.NodeModel
import QuantyDb.BtreeModel

/-! # Range scans, cell by cell

    `Scan` is an iterator.  It stands in a leaf, at the offset of a cell, and
    keeps a stack of the branches above with the child to go to next in each.
    When the leaf runs out it pops what is exhausted, takes the next child and
    goes down to its first leaf; only the first way down looks at `start`.

    Pages are bytes and are read in place.  A chain of branches need not end
    in a damaged file, so the ways down carry fuel; what a good tree needs of
    it is proved. -/

namespace QuantyCursor

open QuantyKey QuantyPage QuantyPager QuantyBtree QuantyCodec QuantyNode LittleEndian

/-- The trait `ReadPages`. -/
structure ReadPages where
  read : PageId → Except Error Bytes
  pageSize : Nat

/-! ## Values -/

/-- One page of a chain, as `read_value` reads it. -/
def ReadPages.part (src : ReadPages) (page : PageId) : Except Error (PageId × Bytes) :=
  match src.read page with
  | .error e => .error e
  | .ok buf =>
      match pageType buf with
      | .error e => .error e
      | .ok kind =>
          if kind ≠ .overflow then
            .error (.corrupted (some page) "overflow chain hit a non-overflow page")
          else
            let used := ofLe (slice (PAGE_HEADER_LEN + 8) 2 buf)
            if overflowCapacity src.pageSize < used then
              .error (.corrupted (some page) "overflow page claims impossible length")
            else .ok (getU64 buf PAGE_HEADER_LEN, slice (PAGE_HEADER_LEN + 10) used buf)

/-- The value of a cell found in place. -/
def readCell (src : ReadPages) (buf : Bytes) : CellValue → Except Error Bytes
  | .inline start stop => .ok (range buf (start, stop))
  | .overflow head len => readChain src.part src.pageSize head len

/-! ## The iterator -/

structure Scan where
  /-- The branches on the path, the lowest first: page bytes, the index of the
      child to descend into next, and how many entries the branch has. -/
  stack : List (Bytes × Nat × Nat)
  leaf : Option (Bytes × PageId)
  leafAt : Nat
  leafLeft : Nat
  stop : Option Key
  failed : Bool

abbrev ScanM := EStateM Error Scan

/-- The cells below `start` are stepped over. -/
def skipBelow (buf : Bytes) (page : PageId) (key : Key) : Nat → Nat → Except Error (Nat × Nat)
  | 0, off => .ok (off, 0)
  | left + 1, off =>
      match leafCellAt buf off page with
      | .error e => .error e
      | .ok cell =>
          if key ≤ keyIn buf cell.key then .ok (off, left + 1)
          else skipBelow buf page key left cell.next

/-- Where a leaf is entered, and how many cells are left from there. -/
def leafStart (buf : Bytes) (page : PageId) : Option Key → Except Error (Nat × Nat)
  | none => .ok (PAGE_HEADER_LEN, count buf)
  | some key => skipBelow buf page key (count buf) PAGE_HEADER_LEN

def childIdx (buf : Bytes) : Option Key → Except Error Nat
  | none => .ok 0
  | some key => branchRank buf key

def descend (src : ReadPages) (start : Option Key) : Nat → PageId → ScanM Unit
  | 0, _ => fun s => .error .outOfFuel s
  | fuel + 1, page => fun s =>
      match src.read page with
      | .error e => .error e s
      | .ok buf =>
          match pageType buf with
          | .error e => .error e s
          | .ok .leaf =>
              match leafStart buf page start with
              | .error e => .error e s
              | .ok (off, left) =>
                  .ok () { s with leaf := some (buf, page), leafAt := off, leafLeft := left }
          | .ok .branch =>
              match childIdx buf start with
              | .error e => .error e s
              | .ok idx =>
                  match branchChildAt buf idx with
                  | .error e => .error e s
                  | .ok child => descend src start fuel child
                      { s with stack := (buf, idx + 1, count buf) :: s.stack }
          | .ok _ =>
              match decode buf page with
              | .error e => .error e s
              | .ok _ => .error (.panic "decode refuses a page that is not a node") s

/-- The loop of `advance_leaf`, down a stack. -/
def advanceFrom (src : ReadPages) (fuel : Nat) (s : Scan) :
    List (Bytes × Nat × Nat) → EStateM.Result Error Scan Bool
  | [] => .ok false { s with stack := [] }
  | (buf, next, entries) :: below =>
      if entries < next then advanceFrom src fuel s below
      else
        match branchChildAt buf next with
        | .error e => .error e { s with stack := (buf, next, entries) :: below }
        | .ok child =>
            match descend src none fuel child
                { s with stack := (buf, next + 1, entries) :: below } with
            | .error e s => .error e s
            | .ok _ s => .ok true s

def advanceLeaf (src : ReadPages) (fuel : Nat) : ScanM Bool :=
  fun s => advanceFrom src fuel s s.stack

/-- The loop of `next_ref`: on to a leaf with a cell left, if there is one. -/
def seekCell (src : ReadPages) (depth : Nat) : Nat → ScanM Bool
  | 0 => fun s => .error .outOfFuel s
  | fuel + 1 => fun s =>
      if s.leafLeft = 0 then
        match advanceLeaf src depth s with
        | .error e s => .error e s
        | .ok false s => .ok false s
        | .ok true s => seekCell src depth fuel s
      else .ok true s

namespace Scan

def new (src : ReadPages) (fuel : Nat) (root : PageId) (start stop : Option Key) :
    Except Error Scan :=
  let scan : Scan := ⟨[], none, PAGE_HEADER_LEN, 0, stop, false⟩
  if root = NIL_PAGE then .ok scan
  else
    match descend src start fuel root scan with
    | .error e _ => .error e
    | .ok _ scan => .ok scan

/-- The end of `next_ref`: the end of the range is looked at before the value
    is read. -/
def handOut (src : ReadPages) (s : Scan) (buf : Bytes) (cell : LeafCell) :
    Option (Except Error (Key × Bytes)) × Scan :=
  if s.stop.any (fun stop => decide (stop ≤ keyIn buf cell.key)) then (none, s)
  else
    let s := { s with leafAt := cell.next, leafLeft := s.leafLeft - 1 }
    match readCell src buf cell.value with
    | .error e => (some (.error e), { s with failed := true })
    | .ok value => (some (.ok (keyIn buf cell.key, value)), s)

/-- `next_ref`, and `next`, which copies what it lends. -/
def next (src : ReadPages) (fuel : Nat) (s : Scan) :
    Option (Except Error (Key × Bytes)) × Scan :=
  if s.failed then (none, s)
  else
    match seekCell src fuel fuel s with
    | .error e s => (some (.error e), { s with failed := true })
    | .ok false s => (none, s)
    | .ok true s =>
        match s.leaf with
        | none => (some (.error (.panic "a leaf with cells left")), s)
        | some (buf, page) =>
            match leafCellAt buf s.leafAt page with
            | .error e => (some (.error e), { s with failed := true })
            | .ok cell => s.handOut src buf cell

/-- What the call after `n` calls answers. -/
def answer (src : ReadPages) (fuel : Nat) : Nat → Scan → Option (Except Error (Key × Bytes))
  | 0, s => (s.next src fuel).1
  | n + 1, s => answer src fuel n (s.next src fuel).2

end Scan

end QuantyCursor
