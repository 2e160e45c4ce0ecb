import QuantyDb.PageModel
import QuantyDb.BigEndian
import QuantyDb.Outcome

/-! # The SQLite reader

    A SQLite file is pages of one size.  The first hundred bytes say which
    size; every b-tree page has a header, an array of cell pointers and the
    cells; a payload that does not fit its page goes on in a chain of overflow
    pages; a payload is a record of values.

    All of it comes from a file of somebody else's, so every check of the
    source is here with its error, and so is everything that could go wrong
    without one: an index past a slice, a sum or difference out of range, a
    loop that does not end.  Those are the faults. -/

namespace QuantySqlite

open QuantyPage BigEndian Outcome List

/-! ## Errors -/

inductive Error
  | io (kind : String)
  | notSqlite (reason : String)
  | unsupported (reason : String)
  | malformed (page : Option Nat) (reason : String)
  | panic (message : String)
  | outOfFuel
  deriving DecidableEq, Repr

/-- What the source never may do: panic, or not return. -/
def Error.Fault : Error → Prop
  | .panic _ => True
  | .outOfFuel => True
  | _ => False

abbrev Result := Except Error

/-- `bytes[off]`. -/
def index (bytes : Bytes) (off : Nat) : Result UInt8 :=
  match bytes[off]? with
  | some b => .ok b
  | none => .error (.panic "index out of bounds")

/-- `bytes[start..stop]`. -/
def between (bytes : Bytes) (start stop : Nat) : Result Bytes :=
  if start ≤ stop ∧ stop ≤ bytes.length then .ok ((bytes.drop start).take (stop - start))
  else .error (.panic "slice index out of range")

/-- `bytes[start..]`. -/
def since (bytes : Bytes) (start : Nat) : Result Bytes :=
  if start ≤ bytes.length then .ok (bytes.drop start)
  else .error (.panic "slice index out of range")

/-- `a + b` on lengths and offsets. -/
def plus (a b : Nat) : Result Nat :=
  if a + b < 2 ^ 64 then .ok (a + b) else .error (.panic "attempt to add with overflow")

def minus (a b : Nat) : Result Nat :=
  if b ≤ a then .ok (a - b) else .error (.panic "attempt to subtract with overflow")

def times (a b : Nat) : Result Nat :=
  if a * b < 2 ^ 64 then .ok (a * b) else .error (.panic "attempt to multiply with overflow")

def remainder (a b : Nat) : Result Nat :=
  if b = 0 then .error (.panic "attempt to calculate the remainder with a divisor of zero")
  else .ok (a % b)

abbrev U16 := { n : Nat // n < 2 ^ 16 }

abbrev U32 := { n : Nat // n < 2 ^ 32 }

theorem ofBe_two_lt (a b : UInt8) : ofBe [a, b] < 2 ^ 16 := by
  have h := ofBe_lt [a, b]
  simp only [length_cons, length_nil] at h
  omega

theorem ofBe_four_lt (a b c d : UInt8) : ofBe [a, b, c, d] < 2 ^ 32 := by
  have h := ofBe_lt [a, b, c, d]
  simp only [length_cons, length_nil] at h
  omega

def be16 (bytes : Bytes) (off : Nat) : Result U16 := do
  let a ← index bytes off
  let b ← index bytes (off + 1)
  return ⟨ofBe [a, b], ofBe_two_lt a b⟩

def be32 (bytes : Bytes) (off : Nat) : Result U32 := do
  let a ← index bytes off
  let b ← index bytes (off + 1)
  let c ← index bytes (off + 2)
  let d ← index bytes (off + 3)
  return ⟨ofBe [a, b, c, d], ofBe_four_lt a b c d⟩

/-! ## Sources -/

/-- The trait `Source`: a read fills the buffer it is given or fails. -/
structure Source where
  len : Result Nat
  readAt : (offset count : Nat) → Result { bytes : Bytes // bytes.length = count }
  accountsForWal : Bool

def UNEXPECTED_EOF : Error := .io "unexpected end of file"

theorem length_cut {bytes : Bytes} {offset count : Nat} (h : offset + count ≤ bytes.length) :
    ((bytes.drop offset).take count).length = count := by
  rw [length_take, length_drop]
  omega

/-- `SliceSource`. -/
def sliceSource (bytes : Bytes) : Source where
  len := .ok bytes.length
  readAt offset count :=
    if 2 ^ 64 ≤ offset + count then .error UNEXPECTED_EOF
    else if h : bytes.length < offset + count then .error UNEXPECTED_EOF
    else .ok ⟨(bytes.drop offset).take count, length_cut (not_lt.mp h)⟩
  accountsForWal := false

/-! ## The database header -/

def HEADER_LEN : Nat := 100

/-- `b"SQLite format 3\0"`. -/
def MAGIC : Bytes := [83, 81, 76, 105, 116, 101, 32, 102, 111, 114, 109, 97, 116, 32, 51, 0]

inductive TextEncoding
  | utf8 | utf16Le | utf16Be
  deriving DecidableEq, Repr

/-- The fields of the header that the reader uses.  A page has at least 480
    bytes to use. -/
structure Header where
  pageSize : Nat
  reservedSpace : Nat
  walMode : Bool
  headerPageCount : Option U32
  textEncoding : TextEncoding
  small : pageSize ≤ 65536
  usable : reservedSpace + 480 ≤ pageSize
  deriving DecidableEq

def Header.usableSize (h : Header) : Nat := h.pageSize - h.reservedSpace

/-- So a length can be divided by the page size. -/
theorem Header.pageSize_pos (h : Header) : 0 < h.pageSize := by
  have := h.usable
  omega

def isPowerOfTwo (n : Nat) : Prop := 2 ^ Nat.log2 n = n

instance (n : Nat) : Decidable (isPowerOfTwo n) := inferInstanceAs (Decidable (_ = _))

/-- The page size field: 1 stands for 65536, which does not fit. -/
def pageSizeOf (raw : U16) : Nat := if raw.val = 1 then 65536 else raw.val

theorem pageSizeOf_le (raw : U16) : pageSizeOf raw ≤ 65536 := by
  rw [pageSizeOf]
  have := raw.property
  split <;> omega

def textEncodingOf (n : Nat) : Result TextEncoding :=
  match n with
  | 1 => .ok .utf8
  | 2 => .ok .utf16Le
  | 3 => .ok .utf16Be
  | other => .error (.malformed (some 1)
      ("text encoding " ++ toString other ++ " is not one of 1, 2 or 3"))

def Header.parse (bytes : Bytes) : Result Header := do
  let _ ← refuse (bytes.length < HEADER_LEN) (Error.notSqlite ("file is " ++ toString bytes.length
    ++ " bytes, shorter than the " ++ toString HEADER_LEN ++ " byte header"))
  let magic ← between bytes 0 16
  let _ ← refuse (magic ≠ MAGIC)
    (Error.notSqlite "the file does not start with the sqlite format 3 magic string")
  let raw ← be16 bytes 16
  let _ ← refuse (pageSizeOf raw < 512 ∨ ¬ isPowerOfTwo (pageSizeOf raw))
    (Error.malformed (some 1) ("page size " ++ toString (pageSizeOf raw)
      ++ " is not a power of two of at least 512"))
  let writeVersion ← index bytes 18
  let readVersion ← index bytes 19
  let _ ← refuse (readVersion > 2 ∨ writeVersion > 2)
    (Error.unsupported ("file format versions " ++ toString writeVersion.toNat ++ "/"
      ++ toString readVersion.toNat ++ " are newer than this reader"))
  let reserved ← index bytes 20
  let husable ← refuse ((pageSizeOf raw : Int) - (reserved.toNat : Int) < 480)
    (Error.malformed (some 1) ("reserved space " ++ toString reserved.toNat ++ " leaves "
      ++ toString ((pageSizeOf raw : Int) - (reserved.toNat : Int))
      ++ " usable bytes per page, the format requires at least 480"))
  let a ← index bytes 21
  let b ← index bytes 22
  let c ← index bytes 23
  let _ ← refuse (a ≠ 64 ∨ b ≠ 32 ∨ c ≠ 32)
    (Error.malformed (some 1) ("payload fractions are " ++ toString a.toNat ++ "/"
      ++ toString b.toNat ++ "/" ++ toString c.toNat ++ ", the format requires 64/32/32"))
  let fileChangeCounter ← be32 bytes 24
  let claimed ← be32 bytes 28
  let versionValidFor ← be32 bytes 92
  let schemaFormat ← be32 bytes 44
  let _ ← refuse (schemaFormat.val < 1 ∨ 4 < schemaFormat.val)
    (Error.malformed (some 1) ("schema format " ++ toString schemaFormat.val
      ++ " is not one of 1 to 4"))
  let encoding ← be32 bytes 56
  let textEncoding ← textEncodingOf encoding.val
  let expansion ← between bytes 72 92
  let _ ← refuse (expansion.any (· ≠ 0) = true)
    (Error.malformed (some 1) "the reserved header range 72..92 is not zero")
  return {
    pageSize := pageSizeOf raw
    reservedSpace := reserved.toNat
    walMode := writeVersion = 2 ∨ readVersion = 2
    headerPageCount :=
      if claimed.val ≠ 0 ∧ versionValidFor = fileChangeCounter then some claimed else none
    textEncoding
    small := pageSizeOf_le raw
    usable := by
      have := husable.down
      omega }

/-! ## The reader -/

structure Reader where
  source : Source
  header : Header
  pageCount : Nat
  pages : pageCount < 2 ^ 32

def U32_MAX : Nat := 2 ^ 32 - 1

/-- How many pages the file has, by its header or by its length. -/
def countPages (header : Header) (fileLen : Nat) : Result U32 :=
  let inFile := fileLen / header.pageSize
  match header.headerPageCount with
  | some claimed =>
      if inFile < claimed.val then
        .error (.malformed none ("the header says " ++ toString claimed.val ++ " pages of "
          ++ toString header.pageSize ++ " bytes, but the file only holds " ++ toString inFile))
      else .ok claimed
  | none => .ok ⟨min inFile U32_MAX, by rw [U32_MAX]; omega⟩

/-- `Reader::open`. -/
def Reader.open (source : Source) : Result Reader := do
  let fileLen ← source.len
  let _ ← refuse (fileLen < HEADER_LEN) (Error.notSqlite ("file is " ++ toString fileLen
    ++ " bytes, shorter than the " ++ toString HEADER_LEN ++ " byte header"))
  let bytes ← source.readAt 0 HEADER_LEN
  let header ← Header.parse bytes.val
  let _ ← refuse (header.walMode = true ∧ source.accountsForWal = false) (Error.unsupported
    ("the database is in wal mode and nothing here accounts for its log, so the main file may be "
      ++ "missing committed data; open it with open_file, put a WalSource around it, or check the "
      ++ "log in first, for example with: sqlite3 db.sqlite 'pragma wal_checkpoint(truncate)'"))
  let pageCount ← countPages header fileLen
  let _ ← refuse (pageCount.val = 0) (Error.malformed none "the file holds no complete page")
  return ⟨source, header, pageCount.val, pageCount.property⟩

namespace Reader

def usableSize (r : Reader) : Nat := r.header.usableSize

def readPage (r : Reader) (number : Nat) :
    Result { b : Bytes // b.length = r.header.pageSize } := do
  let _ ← refuse (number = 0 ∨ r.pageCount < number) (Error.malformed (some number)
    ("page " ++ toString number ++ " is outside the file's 1..=" ++ toString r.pageCount))
  let before ← minus number 1
  let offset ← times before r.header.pageSize
  r.source.readAt offset r.header.pageSize

end Reader

/-! ## Variable length integers -/

/-- The first eight bytes, seven bits each: the number and its length when it
    ends among them, and what they spell otherwise. -/
def varintLoop : Bytes → Nat → Nat → Nat × Option Nat
  | [], _, value => (value, none)
  | b :: rest, taken, value =>
      let value := value * 128 + b.toNat % 128
      if b.toNat < 128 then (value, some (taken + 1)) else varintLoop rest (taken + 1) value

/-- `as i64`. -/
def asI64 (n : Nat) : Int := if n < 2 ^ 63 then n else n - 2 ^ 64

/-- `varint::read`. -/
def readVarint (bytes : Bytes) : Result (Int × Nat) :=
  match varintLoop (bytes.take 8) 0 0 with
  | (value, some taken) => .ok (asI64 value, taken)
  | (value, none) =>
      match bytes[8]? with
      | some b => .ok (asI64 (value * 256 + b.toNat), 9)
      | none => .error (.malformed none "a varint runs past the end of its cell")

/-- `varint::read_unsigned`. -/
def readUnsigned (bytes : Bytes) : Result (Nat × Nat) := do
  let (value, taken) ← readVarint bytes
  let _ ← refuse (value < 0) (Error.malformed none
    ("a length varint holds the negative value " ++ toString value))
  return (value.toNat, taken)

/-! ## B-tree pages -/

inductive PageKind
  | interiorIndex | interiorTable | leafIndex | leafTable
  deriving DecidableEq, Repr

namespace PageKind

def fromByte (b : UInt8) : Option PageKind :=
  match b.toNat with
  | 2 => some .interiorIndex
  | 5 => some .interiorTable
  | 10 => some .leafIndex
  | 13 => some .leafTable
  | _ => none

def isInterior : PageKind → Bool
  | .interiorIndex | .interiorTable => true
  | _ => false

def isTable : PageKind → Bool
  | .interiorTable | .leafTable => true
  | _ => false

def headerLen (k : PageKind) : Nat := if k.isInterior then 12 else 8

/-- `{:?}`. -/
def debug : PageKind → String
  | .interiorIndex => "InteriorIndex"
  | .interiorTable => "InteriorTable"
  | .leafIndex => "LeafIndex"
  | .leafTable => "LeafTable"

end PageKind

/-- A b-tree page: its cell pointers stay in what is usable of it. -/
structure BtreePage where
  number : Nat
  kind : PageKind
  rightMost : Option Nat
  bytes : Bytes
  usable : Nat
  cellPointers : List Nat
  fits : usable ≤ bytes.length
  pointers : ∀ p ∈ cellPointers, p < usable

/-- The cell pointers one after another, each checked. -/
def readPointers (number : Nat) (bytes : Bytes) (usable start pointersEnd : Nat) :
    Nat → Nat → Result { l : List Nat // ∀ p ∈ l, p < usable }
  | 0, _ => .ok ⟨[], nofun⟩
  | left + 1, i => do
      let p ← be16 bytes (start + i * 2)
      let hp ← refuse (p.val < pointersEnd ∨ usable ≤ p.val) (Error.malformed (some number)
        ("cell " ++ toString i ++ " points at offset " ++ toString p.val
          ++ ", outside the content area " ++ toString pointersEnd ++ ".." ++ toString usable))
      let rest ← readPointers number bytes usable start pointersEnd left (i + 1)
      return ⟨p.val :: rest.val, forall_mem_cons.mpr
        ⟨not_le.mp fun h => hp.down (.inr h), rest.property⟩⟩

/-- The right most child of an interior page. -/
def readRightMost (number : Nat) (bytes : Bytes) (bodyOffset : Nat) (kind : PageKind) :
    Result (Option Nat) :=
  if kind.isInterior then do
    let child ← be32 bytes (bodyOffset + 8)
    let _ ← refuse (child.val = 0) (Error.malformed (some number)
      "interior page has a right most child pointer of 0")
    return some child.val
  else .ok none

/-- Where the cell content area starts; 0 stands for 65536. -/
def contentStartOf (raw : U16) : Nat := if raw.val = 0 then 65536 else raw.val

/-- `BtreePage::parse`. -/
def BtreePage.parse (number : Nat) (bytes : Bytes) (usable bodyOffset : Nat)
    (fits : usable ≤ bytes.length) : Result BtreePage := do
  let _ ← refuse (usable < bodyOffset + 8)
    (Error.malformed (some number) "page is too small to hold a b-tree header")
  let type ← index bytes bodyOffset
  match PageKind.fromByte type with
  | none => throw (Error.malformed (some number)
      ("page type " ++ toString type.toNat ++ " is not one of 2, 5, 10 or 13"))
  | some kind => do
      let _ ← refuse (usable < bodyOffset + kind.headerLen)
        (Error.malformed (some number) "page is too small to hold an interior b-tree header")
      let cellCount ← be16 bytes (bodyOffset + 3)
      let pointersEnd := bodyOffset + kind.headerLen + cellCount.val * 2
      let _ ← refuse (usable < pointersEnd) (Error.malformed (some number)
        (toString cellCount.val ++ " cell pointers do not fit in " ++ toString usable
          ++ " usable bytes"))
      let rawStart ← be16 bytes (bodyOffset + 5)
      let contentStart := contentStartOf rawStart
      let _ ← refuse (usable < contentStart) (Error.malformed (some number)
        ("cell content area starts at " ++ toString contentStart ++ ", past the usable "
          ++ toString usable))
      let _ ← refuse (0 < cellCount.val ∧ contentStart < pointersEnd)
        (Error.malformed (some number) ("cell content area starts at " ++ toString contentStart
          ++ ", inside the header and pointer array which end at " ++ toString pointersEnd))
      let pointers ← readPointers number bytes usable (bodyOffset + kind.headerLen) pointersEnd
        cellCount.val 0
      let rightMost ← readRightMost number bytes bodyOffset kind
      return ⟨number, kind, rightMost, bytes, usable, pointers.val, fits, pointers.property⟩

namespace BtreePage

def cellCount (p : BtreePage) : Nat := p.cellPointers.length

/-- `BtreePage::cell`: from where the cell starts to the end of what is
    usable. -/
def cell (p : BtreePage) (i : Nat) : Result Bytes :=
  match p.cellPointers[i]? with
  | none => .error (.malformed (some p.number)
      ("cell " ++ toString i ++ " requested, page has " ++ toString p.cellCount))
  | some start => between p.bytes start p.usable

end BtreePage

theorem Header.usableSize_le (h : Header) : h.usableSize ≤ h.pageSize := Nat.sub_le _ _

/-- Page 1 has the database header in front. -/
def bodyOffsetOf (number : Nat) : Nat := if number = 1 then HEADER_LEN else 0

def Reader.btreePage (r : Reader) (number : Nat) : Result BtreePage := do
  let bytes ← r.readPage number
  BtreePage.parse number bytes.val r.usableSize (bodyOffsetOf number)
    (bytes.property.symm ▸ r.header.usableSize_le)

/-! ## Cells -/

inductive Cell
  | tableInterior (child : Nat) (rowid : Int)
  | tableLeaf (rowid : Int) (payload : Bytes)
  | indexInterior (child : Nat) (payload : Bytes)
  | indexLeaf (payload : Bytes)
  deriving DecidableEq, Repr

/-- `{:?}` of a list of bytes. -/
def debugBytes (bytes : Bytes) : String :=
  "[" ++ ", ".intercalate (bytes.map (fun b => toString b.toNat)) ++ "]"

/-- `{:?}`; a brace is spelled by its code. -/
def Cell.debug : Cell → String
  | .tableInterior child rowid =>
      "TableInterior \x7b child: " ++ toString child ++ ", rowid: " ++ toString rowid ++ " \x7d"
  | .tableLeaf rowid payload =>
      "TableLeaf \x7b rowid: " ++ toString rowid ++ ", payload: " ++ debugBytes payload ++ " \x7d"
  | .indexInterior child payload =>
      "IndexInterior \x7b child: " ++ toString child ++ ", payload: " ++ debugBytes payload
        ++ " \x7d"
  | .indexLeaf payload => "IndexLeaf \x7b payload: " ++ debugBytes payload ++ " \x7d"

/-- Where the payload of a cell is before overflow pages are followed. -/
structure PayloadRef where
  total : Nat
  inPage : Bytes
  overflow : Option Nat
  deriving DecidableEq, Repr

inductive CellLayout
  | tableInterior (child : Nat) (rowid : Int)
  | tableLeaf (rowid : Int) (payload : PayloadRef)
  | indexInterior (child : Nat) (payload : PayloadRef)
  | indexLeaf (payload : PayloadRef)
  deriving DecidableEq, Repr

/-- How much of a payload stays on the page at most. -/
def maxLocal (kind : PageKind) (usable : Nat) : Result Nat :=
  if kind = .leafTable then minus usable 35
  else do
    let body ← minus usable 12
    minus (body * 64 / 255) 23

/-- `local_len`. -/
def localLen (kind : PageKind) (usable total : Nat) : Result Nat := do
  let most ← maxLocal kind usable
  if total ≤ most then return total
  let body ← minus usable 12
  let least ← minus (body * 32 / 255) 23
  let spilled ← minus total least
  let perPage ← minus usable 4
  let extra ← remainder spilled perPage
  let k := least + extra
  return if k ≤ most then k else least

/-- The page a payload goes on in, behind its part on this page. -/
def readOverflow (number : Nat) (rest : Bytes) : Result Nat := do
  let _ ← refuse (rest.length < 4)
    (Error.malformed (some number) "a spilled cell has no room for its overflow pointer")
  let first ← be32 rest 0
  let _ ← refuse (first.val = 0)
    (Error.malformed (some number) "a spilled cell points at overflow page 0")
  return first.val

/-- The overflow page of a payload that is not whole on its page. -/
def overflowOf (number : Nat) (afterHeader : Bytes) (kept total : Nat) : Result (Option Nat) :=
  if kept < total then do
    let rest ← since afterHeader kept
    let first ← readOverflow number rest
    return some first
  else .ok none

/-- `payload_ref`. -/
def payloadRef (number : Nat) (kind : PageKind) (afterHeader : Bytes) (total usable limit : Nat) :
    Result PayloadRef := do
  let _ ← refuse (limit < total) (Error.malformed (some number)
    ("a cell claims a " ++ toString total
    ++ " byte payload, more than the " ++ toString limit ++ " bytes the file holds"))
  let kept ← localLen kind usable total
  let _ ← refuse (afterHeader.length < kept) (Error.malformed (some number)
    ("a cell keeps " ++ toString kept ++ " bytes on the page but only "
      ++ toString afterHeader.length ++ " are left on it"))
  let overflow ← overflowOf number afterHeader kept total
  let inPage ← between afterHeader 0 kept
  return ⟨total, inPage, overflow⟩

/-- The child pointer of an interior cell. -/
def readChild (number i : Nat) (bytes : Bytes) : Result Nat := do
  let _ ← refuse (bytes.length < 4) (Error.malformed (some number)
    ("cell " ++ toString i ++ " is too short for a child pointer"))
  let child ← be32 bytes 0
  let _ ← refuse (child.val = 0)
    (Error.malformed (some number) ("cell " ++ toString i ++ " points at page 0"))
  return child.val

/-- `cell::parse`. -/
def parseCell (page : BtreePage) (i usable limit : Nat) : Result CellLayout := do
  let bytes ← page.cell i
  match page.kind with
  | .interiorTable => do
      let child ← readChild page.number i bytes
      let rest ← since bytes 4
      let (rowid, _) ← readVarint rest
      return .tableInterior child rowid
  | .leafTable => do
      let (total, sizeLen) ← readUnsigned bytes
      let rest ← since bytes sizeLen
      let (rowid, rowidLen) ← readVarint rest
      let payload ← since bytes (sizeLen + rowidLen)
      let ref ← payloadRef page.number page.kind payload total usable limit
      return .tableLeaf rowid ref
  | .interiorIndex => do
      let child ← readChild page.number i bytes
      let rest ← since bytes 4
      let (total, sizeLen) ← readUnsigned rest
      let payload ← since bytes (4 + sizeLen)
      let ref ← payloadRef page.number page.kind payload total usable limit
      return .indexInterior child ref
  | .leafIndex => do
      let (total, sizeLen) ← readUnsigned bytes
      let payload ← since bytes sizeLen
      let ref ← payloadRef page.number page.kind payload total usable limit
      return .indexLeaf ref

namespace Reader

def payloadLimit (r : Reader) : Nat := r.pageCount * r.header.pageSize

/-- The loop of `assemble`: what there is of the payload, and the page that
    follows. -/
def assembleLoop (r : Reader) (total perPage : Nat) : Nat → Bytes → Nat → Result (Bytes × Nat)
  | fuel, out, next =>
      if out.length < total then
        match fuel with
        | 0 => .error .outOfFuel
        | fuel + 1 => do
            let _ ← refuse (next = 0) (Error.malformed none ("an overflow chain ended after "
              ++ toString out.length ++ " of " ++ toString total ++ " payload bytes"))
            let page ← r.readPage next
            let following ← be32 page.val 0
            let missing ← minus total out.length
            let part ← between page.val 4 (4 + min perPage missing)
            assembleLoop r total perPage fuel (out ++ part) following.val
      else .ok (out, next)

/-- `assemble`. -/
def assemble (r : Reader) (payload : PayloadRef) : Result Bytes :=
  match payload.overflow with
  | none => .ok payload.inPage
  | some first => do
      let perPage ← minus r.usableSize 4
      let (out, next) ← assembleLoop r payload.total perPage payload.total payload.inPage first
      let _ ← refuse (next ≠ 0) (Error.malformed none
        "an overflow chain continues past the end of its payload")
      return out

def cell (r : Reader) (page : BtreePage) (i : Nat) : Result Cell := do
  let layout ← parseCell page i r.usableSize r.payloadLimit
  match layout with
  | .tableInterior child rowid => return .tableInterior child rowid
  | .tableLeaf rowid payload => return .tableLeaf rowid (← r.assemble payload)
  | .indexInterior child payload => return .indexInterior child (← r.assemble payload)
  | .indexLeaf payload => return .indexLeaf (← r.assemble payload)

end Reader

/-! ## Records -/

inductive SqliteValue
  | null
  | integer (i : Int)
  | real (bits : UInt64)
  | text (s : String)
  | blob (b : Bytes)
  deriving DecidableEq, Repr

def SqliteValue.typeName : SqliteValue → String
  | .null => "null"
  | .integer _ => "integer"
  | .real _ => "real"
  | .text _ => "text"
  | .blob _ => "blob"

inductive SerialType
  | null
  | int (bytes : Nat)
  | float
  | zero
  | one
  | blob (len : Nat)
  | text (len : Nat)
  deriving DecidableEq, Repr

namespace SerialType

/-- The widths of the types 1 to 6. -/
def INT_WIDTHS : List Nat := [1, 2, 3, 4, 6, 8]

def fromCode (code : Nat) : Result SerialType :=
  if code = 0 then .ok .null
  else if code ≤ 6 then .ok (.int (INT_WIDTHS.getD (code - 1) 0))
  else if code = 7 then .ok .float
  else if code = 8 then .ok .zero
  else if code = 9 then .ok .one
  else if code ≤ 11 then .error (.malformed none
    ("serial type " ++ toString code ++ " is reserved for internal use"))
  else if code % 2 = 0 then do
    let twice ← minus code 12
    return .blob (twice / 2)
  else do
    let twice ← minus code 13
    return .text (twice / 2)

def width : SerialType → Nat
  | .null | .zero | .one => 0
  | .int n => n
  | .float => 8
  | .blob n | .text n => n

end SerialType

/-- `signed_be`: the widths below eight bytes are sign extended. -/
def signedBe (bytes : Bytes) : Result Int :=
  let value := ofBe bytes
  let bits := 8 * bytes.length
  if bits < 64 then do
    let sign ← minus bits 1
    return if value / 2 ^ sign % 2 = 1 then (value : Int) - 2 ^ bits else value
  else .ok (asI64 value)

/-- `[u8; 8]::copy_from_slice`. -/
def eightBytes (bytes : Bytes) : Result Bytes :=
  if bytes.length = 8 then .ok bytes
  else .error (.panic
    "copy_from_slice: source slice length does not match destination slice length")

/-! ### Text -/

/-- How long a UTF-8 sequence is by its first byte, and the second bytes it
    may have. -/
def utf8Shape (b : Nat) : Option (Nat × Nat × Nat) :=
  if 0xC2 ≤ b ∧ b ≤ 0xDF then some (2, 0x80, 0xBF)
  else if b = 0xE0 then some (3, 0xA0, 0xBF)
  else if b = 0xED then some (3, 0x80, 0x9F)
  else if 0xE1 ≤ b ∧ b ≤ 0xEF then some (3, 0x80, 0xBF)
  else if b = 0xF0 then some (4, 0x90, 0xBF)
  else if b = 0xF4 then some (4, 0x80, 0x8F)
  else if 0xF1 ≤ b ∧ b ≤ 0xF3 then some (4, 0x80, 0xBF)
  else none

/-- The continuation bytes of a sequence: how many bytes of it are bad, with
    none when the text ends in it, or that it is fine. -/
def utf8Continue : Bytes → Nat → Nat → Nat → Nat → Option (Option Nat)
  | _, 0, _, _, _ => none
  | [], _ + 1, _, _, _ => some none
  | b :: rest, missing + 1, seen, low, high =>
      if low ≤ b.toNat ∧ b.toNat ≤ high then utf8Continue rest missing (seen + 1) 0x80 0xBF
      else some (some seen)

/-- Where UTF-8 goes wrong, and for how many bytes when it does not just end. -/
def utf8Fault : Nat → Bytes → Nat → Option (Nat × Option Nat)
  | 0, _, _ => none
  | _ + 1, [], _ => none
  | fuel + 1, b :: rest, off =>
      if b.toNat < 0x80 then utf8Fault fuel rest (off + 1)
      else
        match utf8Shape b.toNat with
        | none => some (off, some 1)
        | some (len, low, high) =>
            match utf8Continue rest (len - 1) 1 low high with
            | some fault => some (off, fault)
            | none => utf8Fault fuel (rest.drop (len - 1)) (off + len)

/-- `Display` of `Utf8Error`. -/
def utf8Message (bytes : Bytes) : String :=
  match utf8Fault bytes.length bytes 0 with
  | some (off, some len) => "invalid utf-8 sequence of " ++ toString len ++ " bytes from index "
      ++ toString off
  | some (off, none) => "incomplete utf-8 byte sequence from index " ++ toString off
  | none => ""

/-- The code units of a text, two bytes each. -/
def codeUnits (bigEndian : Bool) : Bytes → List Nat
  | a :: b :: rest =>
      (if bigEndian then a.toNat * 256 + b.toNat else b.toNat * 256 + a.toNat)
        :: codeUnits bigEndian rest
  | _ => []

/-- `String::from_utf16`. -/
def fromUtf16 : List Nat → Option (List Char)
  | [] => some []
  | u :: rest =>
      if u < 0xD800 ∨ 0xDFFF < u then (fromUtf16 rest).map (Char.ofNat u :: ·)
      else if 0xDC00 ≤ u then none
      else
        match rest with
        | [] => none
        | low :: rest =>
            if 0xDC00 ≤ low ∧ low ≤ 0xDFFF then
              (fromUtf16 rest).map
                (Char.ofNat (0x10000 + (u - 0xD800) * 0x400 + (low - 0xDC00)) :: ·)
            else none

/-- `text_from`. -/
def textFrom (bytes : Bytes) (encoding : TextEncoding) : Result String :=
  match encoding with
  | .utf8 =>
      match String.fromUTF8? ⟨bytes.toArray⟩ with
      | some text => .ok text
      | none => .error (.malformed none ("a text value is not valid utf-8: " ++ utf8Message bytes))
  | _ =>
      if bytes.length % 2 ≠ 0 then
        .error (.malformed none ("a utf-16 text value is " ++ toString bytes.length
          ++ " bytes long, which is not a whole number of code units"))
      else
        match fromUtf16 (codeUnits (encoding = .utf16Be) bytes) with
        | some text => .ok (String.ofList text)
        | none => .error (.malformed none
            "a utf-16 text value holds an unpaired surrogate, so it is not text")

/-! ### Decoding -/

/-- The serial types of a record's header. -/
def readTypes (payload : Bytes) (headerLen : Nat) : Nat → Nat → Result (List SerialType)
  | fuel, off =>
      if off < headerLen then
        match fuel with
        | 0 => .error .outOfFuel
        | fuel + 1 => do
            let rest ← between payload off headerLen
            let (code, len) ← readUnsigned rest
            let type ← SerialType.fromCode code
            let types ← readTypes payload headerLen fuel (off + len)
            return type :: types
      else .ok []

/-- The value of a serial type from its bytes. -/
def valueOf (encoding : TextEncoding) (type : SerialType) (bytes : Bytes) : Result SqliteValue :=
  match type with
  | .null => .ok .null
  | .zero => .ok (.integer 0)
  | .one => .ok (.integer 1)
  | .int _ => do return .integer (← signedBe bytes)
  | .float => do return .real (UInt64.ofNat (ofBe (← eightBytes bytes)))
  | .blob _ => .ok (.blob bytes)
  | .text _ => do return .text (← textFrom bytes encoding)

/-- The values of a record's body. -/
def readValues (payload : Bytes) (encoding : TextEncoding) :
    List SerialType → Nat → Result (List SqliteValue)
  | [], _ => .ok []
  | type :: types, off => do
      let _ ← refuse (2 ^ 64 ≤ off + type.width)
        (Error.malformed none "a record value overflows the payload length")
      let stop := off + type.width
      let _ ← refuse (payload.length < stop) (Error.malformed none
        ("a " ++ toString type.width ++ " byte value at offset " ++ toString off
          ++ " runs past the " ++ toString payload.length ++ " byte payload"))
      let bytes ← between payload off stop
      let value ← valueOf encoding type bytes
      let values ← readValues payload encoding types stop
      return value :: values

/-- `record::decode`. -/
def decodeRecord (payload : Bytes) (encoding : TextEncoding) : Result (List SqliteValue) := do
  let (headerLen, varintLen) ← readUnsigned payload
  let _ ← refuse (headerLen < varintLen ∨ payload.length < headerLen) (Error.malformed none
    ("record header claims " ++ toString headerLen ++ " bytes of a " ++ toString payload.length
      ++ " byte payload"))
  let types ← readTypes payload headerLen headerLen varintLen
  readValues payload encoding types headerLen

end QuantySqlite
