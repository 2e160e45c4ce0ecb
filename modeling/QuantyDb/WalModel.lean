import QuantyDb.SqliteModel

/-! # The write-ahead log of a SQLite database

    In wal mode a writer appends whole pages to a log next to the main file.
    The log is a header and frames, each a frame header and a page.  A frame
    belongs to the log when its salts are the header's, it is valid when the
    checksum that runs through all frames up to it is the one it carries, and
    it counts once a commit frame comes at or after it.

    `WalSource` is the main file with the log on top: a page that the log has
    is read from there, the others from the main file. -/

namespace QuantySqlite

open QuantyPage BigEndian Outcome Error

def WAL_HEADER_LEN : Nat := 32

def FRAME_HEADER_LEN : Nat := 24

def MAGIC_LITTLE : Nat := 0x377f0682

def MAGIC_BIG : Nat := 0x377f0683

/-- Four bytes as a number, in the byte order of the log. -/
def word (bigEndian : Bool) (a b c d : UInt8) : Nat :=
  if bigEndian then ofBe [a, b, c, d] else ofBe [d, c, b, a]

/-- `checksum`: two running words over pairs of words; what is left over is
    ignored. -/
def checksum (bigEndian : Bool) : Nat × Nat → Bytes → Nat × Nat
  | (s0, s1), a :: b :: c :: d :: e :: f :: g :: h :: rest =>
      let s0 := (s0 + word bigEndian a b c d + s1) % 2 ^ 32
      let s1 := (s1 + word bigEndian e f g h + s0) % 2 ^ 32
      checksum bigEndian (s0, s1) rest
  | s, _ => s

/-- `{:#010x}`. -/
def hexWord (n : Nat) : String :=
  let digits := Nat.toDigits 16 n
  "0x" ++ String.ofList (List.replicate (8 - digits.length) '0' ++ digits)

/-! ## The header of a log -/

structure LogHeader where
  bigEndian : Bool
  pageSize : Nat
  salt : Nat × Nat
  /-- The checksum of the header, which the frames' goes on from. -/
  running : Nat × Nat
  least : 512 ≤ pageSize
  small : pageSize ≤ 2 ^ 31
  deriving DecidableEq

/-- A power of two that fits 32 bits is at most half of what they count. -/
theorem isPowerOfTwo.le {n : Nat} (h : isPowerOfTwo n) (hn : n < 2 ^ 32) : n ≤ 2 ^ 31 := by
  have hlt : Nat.log2 n < 32 := (Nat.pow_lt_pow_iff_right (by decide)).mp (h.symm ▸ hn)
  calc n = 2 ^ Nat.log2 n := h.symm
    _ ≤ 2 ^ 31 := Nat.pow_le_pow_right (by decide) (by omega)

def bigEndianOf (magic : Nat) : Result Bool :=
  if magic = MAGIC_LITTLE then .ok false
  else if magic = MAGIC_BIG then .ok true
  else .error (.malformed none ("the wal file starts with " ++ hexWord magic
    ++ ", not a wal magic number"))

def LogHeader.parse (header : Bytes) : Result LogHeader := do
  let magic ← be32 header 0
  let bigEndian ← bigEndianOf magic.val
  let covered ← between header 0 24
  let running := checksum bigEndian (0, 0) covered
  let sum0 ← be32 header 24
  let sum1 ← be32 header 28
  let _ ← refuse (running ≠ (sum0.val, sum1.val))
    (malformed none "the wal header checksum does not match its contents")
  let format ← be32 header 4
  let _ ← refuse (format.val ≠ 3007000) (unsupported ("wal format version "
    ++ toString format.val ++ " is not the one this reader knows (3007000)"))
  let pageSize ← be32 header 8
  let hsize ← refuse (pageSize.val < 512 ∨ ¬ isPowerOfTwo pageSize.val) (malformed none
    ("the wal header gives a page size of " ++ toString pageSize.val))
  let salt0 ← be32 header 16
  let salt1 ← be32 header 20
  return {
    bigEndian, running
    pageSize := pageSize.val
    salt := (salt0.val, salt1.val)
    least := not_lt.mp fun h => hsize.down (.inl h)
    small := isPowerOfTwo.le (by_contra fun h => hsize.down (.inr h)) pageSize.property }

/-! ## Reading the frames -/

/-- What the loop over the frames keeps.  The pages are a map, the newest entry
    of a page first; pending are the frames since the last commit. -/
structure LogState where
  running : Nat × Nat
  pages : List (Nat × Nat)
  pending : List (Nat × Nat)
  committedFrames : Nat
  pageCount : Nat

/-- A valid frame: it is pending, and with a commit all that is pending counts. -/
def LogState.push (st : LogState) (index number afterCommit offset : Nat) (running : Nat × Nat) :
    LogState :=
  let pending := st.pending ++ [(number, offset)]
  if afterCommit ≠ 0 then
    { running
      pages := pending.reverse ++ st.pages
      pending := []
      committedFrames := index + 1
      pageCount := afterCommit }
  else { st with running, pending }

/-- The loop of `Wal::open`.  It stops at the first frame of another generation
    or with another checksum. -/
def openLoop (source : Source) (h : LogHeader) : Nat → Nat → LogState → Result LogState
  | 0, _, st => .ok st
  | left + 1, index, st => do
      let skipped ← times index (FRAME_HEADER_LEN + h.pageSize)
      let offset ← plus WAL_HEADER_LEN skipped
      let frameHeader ← source.readAt offset FRAME_HEADER_LEN
      let number ← be32 frameHeader.val 0
      let afterCommit ← be32 frameHeader.val 4
      let salt0 ← be32 frameHeader.val 8
      let salt1 ← be32 frameHeader.val 12
      if (salt0.val, salt1.val) ≠ h.salt then return st
      else
        let data ← plus offset FRAME_HEADER_LEN
        let page ← source.readAt data h.pageSize
        let covered ← between frameHeader.val 0 8
        let computed := checksum h.bigEndian (checksum h.bigEndian st.running covered) page.val
        let sum0 ← be32 frameHeader.val 16
        let sum1 ← be32 frameHeader.val 20
        if computed ≠ (sum0.val, sum1.val) then return st
        else
          let _ ← refuse (number.val = 0) (malformed none
            ("wal frame " ++ toString index ++ " claims to hold page 0"))
          openLoop source h left (index + 1)
            (st.push index number.val afterCommit.val data computed)

/-- A log, read up to its last commit. -/
structure Wal where
  source : Source
  pageSize : Nat
  pages : List (Nat × Nat)
  pageCount : Nat
  committedFrames : Nat
  totalFrames : Nat

/-- `Wal::open`. -/
def Wal.open (source : Source) : Result Wal := do
  let len ← source.len
  if len < WAL_HEADER_LEN then return ⟨source, 0, [], 0, 0, 0⟩
  else
    let header ← source.readAt 0 WAL_HEADER_LEN
    let h ← LogHeader.parse header.val
    let body ← minus len WAL_HEADER_LEN
    let totalFrames := min (body / (FRAME_HEADER_LEN + h.pageSize)) U32_MAX
    let st ← openLoop source h totalFrames 0 ⟨h.running, [], [], 0, 0⟩
    return {
      source, totalFrames
      pageSize := h.pageSize
      pages := st.pages.filter fun e => e.1 ≤ st.pageCount
      pageCount := st.pageCount
      committedFrames := st.committedFrames }

namespace Wal

def isEmpty (w : Wal) : Bool := w.pages.isEmpty

/-- `read_page_part`: nothing when the log does not have the page. -/
def readPagePart (w : Wal) (number offset count : Nat) :
    Result (Option { b : Bytes // b.length = count }) :=
  match w.pages.lookup number with
  | none => .ok none
  | some data => do
      let stop ← plus offset count
      let _ ← refuse (w.pageSize < stop) (malformed (some number)
        ("a read of " ++ toString count ++ " bytes at " ++ toString offset ++ " runs past the "
          ++ toString w.pageSize ++ " byte wal page"))
      let start ← plus data offset
      let part ← w.source.readAt start count
      return some part

end Wal

/-! ## A database file with its log -/

structure WalSource where
  main : Source
  log : Option Wal
  pageSize : Nat
  pageCount : Nat
  /-- So a position can be divided into a page and a place in it. -/
  positive : 0 < pageSize

namespace WalSource

/-- The log, unless it has nothing to say.  Its page size has to be the
    database's even then. -/
def useLog (pageSize : Nat) (log : Option Source) : Result (Option Wal) :=
  match log with
  | none => .ok none
  | some source => do
      let wal ← Wal.open source
      let _ ← refuse (wal.pageSize ≠ 0 ∧ wal.pageSize ≠ pageSize) (malformed none
        ("the log is written in " ++ toString wal.pageSize ++ " byte pages and the database in "
          ++ toString pageSize))
      return if wal.isEmpty then none else some wal

/-- `WalSource::new`. -/
def new (main : Source) (log : Option Source) : Result WalSource := do
  let len ← main.len
  let _ ← refuse (len < HEADER_LEN)
    (notSqlite "the file is shorter than a database header")
  let bytes ← main.readAt 0 HEADER_LEN
  let header ← Header.parse bytes.val
  let log ← useLog header.pageSize log
  match log with
  | some wal => return ⟨main, some wal, header.pageSize, wal.pageCount, header.pageSize_pos⟩
  | none => do
      let len ← main.len
      return ⟨main, none, header.pageSize, min (len / header.pageSize) U32_MAX,
        header.pageSize_pos⟩

/-- The part of a read that is on one page: from the log when it has the page. -/
def readPart (main : Source) (log : Wal) (page within offset count : Nat) :
    Result { b : Bytes // b.length = count } := do
  -- a page number past 32 bits cannot be in the log
  let served ← if page < 2 ^ 32 then log.readPagePart page within count else .ok none
  match served with
  | some part => return part
  | none => main.readAt offset count

/-- The loop of `read_at`: one page after another. -/
def readLoop (main : Source) (log : Wal) (pageSize offset : Nat) :
    Nat → Nat → (left : Nat) → Result { b : Bytes // b.length = left }
  | _, _, 0 => .ok ⟨[], rfl⟩
  | 0, _, _ + 1 => .error .outOfFuel
  | fuel + 1, done, left + 1 => do
      let start ← plus offset done
      let room ← minus pageSize (start % pageSize)
      let part ← readPart main log (start / pageSize + 1) (start % pageSize) start
        (min room (left + 1))
      let rest ← readLoop main log pageSize offset fuel (done + min room (left + 1))
        (left + 1 - min room (left + 1))
      return ⟨part.val ++ rest.val, by
        rw [List.length_append, part.property, rest.property]
        omega⟩

/-- The source that a database with its log is. -/
def toSource (w : WalSource) : Source where
  len :=
    match w.log with
    | some _ => .ok (w.pageCount * w.pageSize)
    | none => w.main.len
  readAt offset count :=
    match w.log with
    | none => w.main.readAt offset count
    | some log => readLoop w.main log w.pageSize offset count 0 count
  accountsForWal := true

end WalSource

end QuantySqlite
