import QuantyDb.SqliteModel
import QuantyDb.PageWalk

/-! # Walking a SQLite b-tree

    A table tree keeps its rows on its leaves, an index tree its entries on
    every page.  Both are walked with a stack, so that a tree that is only
    deep is no trouble, and with the pages that were visited, so that pointers
    that go in a circle are an error.  One page is kept in hand, since the next
    row is nearly always on the page of the last. -/

namespace QuantySqlite

open QuantyPage Outcome PageWalk

/-- One row of a table with rowids. -/
structure TableRow where
  rowid : Int
  values : List SqliteValue
  deriving DecidableEq, Repr

/-- One row of either kind of table. -/
structure Row where
  rowid : Option Int
  values : List SqliteValue
  deriving DecidableEq, Repr

/-- What the two scans have in common.  The top of the stack is the head of
    the list; `last` is what a scan remembers of its last row. -/
structure Scan (F A : Type) where
  stack : List F
  visited : List Nat
  current : Option BtreePage
  last : A
  finished : Bool

namespace Scan

variable {F A : Type}

/-- `ensure_page`: the page in hand is the one asked for. -/
def ensurePage (r : Reader) (s : Scan F A) (number : Nat) : Result (Scan F A) :=
  if (s.current.map BtreePage.number) = some number then .ok s
  else do
    let page ← r.btreePage number
    return { s with current := some page }

def pageInHand (s : Scan F A) : Result BtreePage :=
  match s.current with
  | some page => .ok page
  | none => .error (.panic "ensure_page runs before every read")

def pop (s : Scan F A) : Scan F A := { s with stack := s.stack.tail }

/-- The frame on top of the stack is changed. -/
def top (f : F → F) (s : Scan F A) : Scan F A :=
  match s.stack with
  | [] => s
  | frame :: below => { s with stack := f frame :: below }

/-- How a kind of scan meets a page: whether the page is of its kind, and the
    errors. -/
structure Kind (F A : Type) where
  accepts : PageKind → Bool
  wrongRoot : Nat → PageKind → String
  wrongChild : PageKind → String
  twice : String
  frame : Nat → F
  last : A

/-- `new`. -/
def new (k : Kind F A) (r : Reader) (root : Nat) : Result (Scan F A) := do
  let page ← r.btreePage root
  let _ ← refuse (k.accepts page.kind = false)
    (Error.malformed (some root) (k.wrongRoot root page.kind))
  return ⟨[k.frame root], [root], some page, k.last, false⟩

/-- The page a pointer leads to, when a scan can go into it. -/
def childPage (k : Kind F A) (r : Reader) (child : Nat) : Result BtreePage := do
  let page ← r.btreePage child
  let _ ← refuse (k.accepts page.kind = false)
    (Error.malformed (some child) (k.wrongChild page.kind))
  return page

/-- `descend`. -/
def descend (k : Kind F A) (r : Reader) (s : Scan F A) (child : Nat) : Result (Scan F A) :=
  if child ∈ s.visited then .error (.malformed (some child) k.twice)
  else do
    let page ← childPage k r child
    return { s with
      visited := child :: s.visited
      current := some page
      stack := k.frame child :: s.stack }

/-- The iterator around a step.  A step that fails finishes the scan, and
    nothing else of it is looked at again. -/
def machine {O : Type} (step : Scan F A → Result (Option O × Scan F A)) :
    Machine (Scan F A) O Error where
  finished s := s.finished
  finish s := { s with finished := true }
  idle s := s.stack.isEmpty
  step s :=
    match step s with
    | .ok (out, s') => (.ok out, s')
    | .error e => (.error e, s)
  finish_finished _ := rfl

end Scan

/-- The right most child of an interior page. -/
def rightMostOf (page : BtreePage) : Result Nat :=
  match page.rightMost with
  | some child => .ok child
  | none => .error (.malformed (some page.number) "an interior page without a right most child")

/-! ## Table trees -/

structure Frame where
  page : Nat
  /-- On an interior page one past the last cell is the right most child. -/
  next : Nat
  deriving DecidableEq, Repr

abbrev TableScan := Scan Frame (Option Int)

namespace TableScan

def kind : Scan.Kind Frame (Option Int) where
  accepts := PageKind.isTable
  wrongRoot root kind := "page " ++ toString root ++ " is a " ++ kind.debug
    ++ ", not a table b-tree; a without rowid table is read with index_scan, or with rows, "
    ++ "which picks for itself"
  wrongChild kind := "a table b-tree points at a " ++ kind.debug
  twice := "the b-tree visits this page twice, so its pointers form a cycle"
  frame page := ⟨page, 0⟩
  last := none

def new (r : Reader) (root : Nat) : Result TableScan := Scan.new kind r root

def descend (r : Reader) (s : TableScan) (child : Nat) : Result TableScan :=
  Scan.descend kind r s child

def bump (s : TableScan) : TableScan := s.top fun frame => { frame with next := frame.next + 1 }

/-- Rows come in the order of their rowids. -/
def checkOrder (number : Nat) (last : Option Int) (rowid : Int) : Result Unit :=
  match last with
  | none => .ok ()
  | some previous =>
      if rowid ≤ previous then .error (.malformed (some number) ("rowid " ++ toString rowid
        ++ " follows " ++ toString previous ++ ", so the table b-tree is not in key order"))
      else .ok ()

/-- The rowid and the payload of a cell of a leaf. -/
def leafCell (number : Nat) (cell : Cell) : Result (Int × Bytes) :=
  match cell with
  | .tableLeaf rowid payload => .ok (rowid, payload)
  | other => .error (.malformed (some number) ("a table leaf page holds " ++ other.debug))

/-- The child of a cell of an interior page. -/
def interiorCell (number : Nat) (cell : Cell) : Result Nat :=
  match cell with
  | .tableInterior child _ => .ok child
  | other => .error (.malformed (some number) ("a table interior page holds " ++ other.debug))

/-- The row of a leaf cell, after the last one. -/
def rowOf (r : Reader) (number : Nat) (last : Option Int) (rowid : Int) (payload : Bytes) :
    Result (Option Int × TableRow) := do
  checkOrder number last rowid
  let values ← decodeRecord payload r.header.textEncoding
  return (some rowid, ⟨rowid, values⟩)

/-- `step`: a row, a descent, or the end of a page. -/
def step (r : Reader) (s : TableScan) : Result (Option TableRow × TableScan) :=
  match s.stack with
  | [] => .ok (none, { s with finished := true })
  | ⟨number, next⟩ :: _ => do
      let s ← s.ensurePage r number
      let page ← s.pageInHand
      if page.kind = .leafTable then
        if page.cellCount ≤ next then return (none, s.pop)
        else
          let cell ← r.cell page next
          let s := bump s
          let (rowid, payload) ← leafCell number cell
          let (last, row) ← rowOf r number s.last rowid payload
          return (some row, { s with last := last })
      else if next < page.cellCount then
        let cell ← r.cell page next
        let s := bump s
        let child ← interiorCell number cell
        let s ← descend r s child
        return (none, s)
      else if next = page.cellCount then
        let s := bump s
        let child ← rightMostOf page
        let s ← descend r s child
        return (none, s)
      else return (none, s.pop)

/-- The iterator. -/
def iter (r : Reader) : Machine TableScan TableRow Error := Scan.machine (step r)

end TableScan

/-! ## Index trees -/

/-- An interior page of an index has entries too: left of each there is a
    child.  `descended` tells the two halves of the visit apart. -/
structure IndexFrame where
  page : Nat
  next : Nat
  descended : Bool
  deriving DecidableEq, Repr

abbrev IndexScan := Scan IndexFrame Unit

namespace IndexScan

def kind : Scan.Kind IndexFrame Unit where
  accepts k := !k.isTable
  wrongRoot root kind := "page " ++ toString root ++ " is a " ++ kind.debug
    ++ ", not an index b-tree"
  wrongChild kind := "an index b-tree points at a " ++ kind.debug
  twice := "the index b-tree visits this page twice, so its pointers form a cycle"
  frame page := ⟨page, 0, false⟩
  last := ()

def new (r : Reader) (root : Nat) : Result IndexScan := Scan.new kind r root

def descend (r : Reader) (s : IndexScan) (child : Nat) : Result IndexScan :=
  Scan.descend kind r s child

/-- The payload of a cell. -/
def payloadCell (number : Nat) (cell : Cell) : Result Bytes :=
  match cell with
  | .indexLeaf payload => .ok payload
  | .indexInterior _ payload => .ok payload
  | other => .error (.malformed (some number) ("an index page holds " ++ other.debug))

/-- The child of a cell of an interior page. -/
def interiorCell (number : Nat) (cell : Cell) : Result Nat :=
  match cell with
  | .indexInterior child _ => .ok child
  | other => .error (.malformed (some number) ("an index interior page holds " ++ other.debug))

/-- `payload_of`. -/
def payloadOf (r : Reader) (s : IndexScan) (number i : Nat) : Result (Bytes × IndexScan) := do
  let s ← s.ensurePage r number
  let page ← s.pageInHand
  let cell ← r.cell page i
  let payload ← payloadCell number cell
  return (payload, s)

def step (r : Reader) (s : IndexScan) : Result (Option (List SqliteValue) × IndexScan) :=
  match s.stack with
  | [] => .ok (none, { s with finished := true })
  | ⟨number, next, descended⟩ :: _ => do
      let s ← s.ensurePage r number
      let page ← s.pageInHand
      if page.kind = .leafIndex then
        if page.cellCount ≤ next then return (none, s.pop)
        else
          let (payload, s) ← payloadOf r s number next
          let s := s.top fun frame => { frame with next := frame.next + 1 }
          let values ← decodeRecord payload r.header.textEncoding
          return (some values, s)
      else if descended = false then
        let s := s.top fun frame => { frame with descended := true }
        if next < page.cellCount then
          let s ← s.ensurePage r number
          let page ← s.pageInHand
          let cell ← r.cell page next
          let child ← interiorCell number cell
          let s ← descend r s child
          return (none, s)
        else
          let child ← rightMostOf page
          let s ← descend r s child
          return (none, s)
      else if next < page.cellCount then
        let (payload, s) ← payloadOf r s number next
        let s := s.top fun frame => { frame with next := frame.next + 1, descended := false }
        let values ← decodeRecord payload r.header.textEncoding
        return (some values, s)
      else return (none, s.pop)

/-- The iterator. -/
def iter (r : Reader) : Machine IndexScan (List SqliteValue) Error := Scan.machine (step r)

end IndexScan

/-! ## Rows -/

/-- More rounds than a scan can take: a round for every cell of every page, and
    for the ends of the pages. -/
def Reader.rounds (r : Reader) : Nat := (r.pageCount + 1) * (2 ^ 17 + 2)

/-- A scan of either kind of table. -/
inductive Rows
  | rowid (scan : TableScan)
  | keyed (scan : IndexScan)

def Rows.next (r : Reader) (fuel : Nat) : Rows → Option (Result Row) × Rows
  | .rowid scan =>
      let (item, scan) := (TableScan.iter r).next .outOfFuel fuel scan
      (item.map fun row => row.map fun row => ⟨some row.rowid, row.values⟩, .rowid scan)
  | .keyed scan =>
      let (item, scan) := (IndexScan.iter r).next .outOfFuel fuel scan
      (item.map fun values => values.map fun values => ⟨none, values⟩, .keyed scan)

/-- `rows`: the root page says which kind of table it is. -/
def Reader.rows (r : Reader) (root : Nat) : Result Rows := do
  let page ← r.btreePage root
  if page.kind.isTable then
    let scan ← TableScan.new r root
    return .rowid scan
  else
    let scan ← IndexScan.new r root
    return .keyed scan

end QuantySqlite
