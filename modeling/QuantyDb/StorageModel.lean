import QuantyDb.CodecModel

/-! # Storage, recovery, and what a crash leaves

    Storage is bytes.  A commit writes its pages, waits for them, writes its
    meta, and waits again; a crash before a wait is over may lose any of the
    writes that it waits for.  A page is written whole or not at all.  The
    meta may be torn: each of its bytes is then the old or the new one.

    Recovery does not know the page size.  It tries every legal one, reads
    both slots at each, and keeps the valid meta with the highest id. -/

namespace QuantyStorage

open QuantyPage QuantyPager QuantyCodec LittleEndian List

/-! ## Bytes -/

/-- What `MemStorage` and a file are: so many bytes. -/
structure Disk where
  len : Nat
  byte : Nat → UInt8

namespace Disk

/-- A byte; past the end there is none yet, and growing fills with zero. -/
def get (d : Disk) (i : Nat) : UInt8 := if i < d.len then d.byte i else 0

/-- The `n` bytes from an offset on. -/
def window (d : Disk) (off n : Nat) : Bytes := (List.range n).map (fun i => d.get (off + i))

/-- `Storage::read_at`: reading past the end is an error. -/
def readAt (d : Disk) (off n : Nat) : Option Bytes :=
  if off + n ≤ d.len then some (d.window off n) else none

/-- `Storage::write_at`: grows the storage if needed. -/
def writeAt (d : Disk) (off : Nat) (buf : Bytes) : Disk where
  len := max d.len (off + buf.length)
  byte i := if off ≤ i ∧ i < off + buf.length then buf.getD (i - off) 0 else d.get i

def writes (d : Disk) (ws : List (Nat × Bytes)) : Disk :=
  ws.foldl (fun d w => d.writeAt w.1 w.2) d

end Disk

/-! ## Recovery -/

/-- The legal page sizes, smallest first. -/
def pageSizes : List Nat := (List.range 8).map (fun k => MIN_PAGE_SIZE * 2 ^ k)

/-- What recovery has found so far. -/
structure Search where
  best : Option Meta
  sawMagic : Bool

section Checksum

variable (crc : Bytes → UInt32)

/-- One slot at one page size.  Only a higher id replaces what was found. -/
def probe (d : Disk) (s : Search) (ps slot : Nat) : Search :=
  match d.readAt (slot * ps) ps with
  | none => s
  | some buf =>
      let sawMagic := s.sawMagic || decide (slice 16 8 buf = MAGIC)
      match Meta.decode crc slot buf with
      | .error _ => ⟨s.best, sawMagic⟩
      | .ok m =>
          if s.best.all (fun b => decide (b.txid < m.txid)) then ⟨some m, sawMagic⟩
          else ⟨s.best, sawMagic⟩

/-- Both slots at every page size. -/
def candidates : List (Nat × Nat) := pageSizes.flatMap (fun ps => [(ps, 0), (ps, 1)])

def search (d : Disk) : Search :=
  candidates.foldl (fun s c => probe crc d s c.1 c.2) ⟨none, false⟩

/-- `meta::recover`. -/
def recover (d : Disk) : Except Error Meta :=
  match (search crc d).best with
  | some m => .ok m
  | none =>
      if (search crc d).sawMagic then .error (.corrupted none "no valid meta page in either slot")
      else .error (.invalidFormat "not a quantydb database")

/-! ## The writes of a commit -/

/-- Step 1 of a commit: every dirty page, sealed. -/
def pageWrites (b : Batch) : List (Nat × Bytes) :=
  b.sealedPages.map (fun e => (e.1 * b.pageSize, image crc b.pageSize e.2))

/-- Where step 3 writes. -/
def metaOffset (b : Batch) : Nat := (b.base.txid + 1) % 2 * b.pageSize

/-- Step 3: the new meta, in the slot the previous one is not in. -/
def metaBytes (now : Nat) (b : Batch) : Bytes := Meta.encode crc (b.newMeta now)

/-- Storage when the commit is through. -/
def commitDisk (now : Nat) (b : Batch) (d : Disk) : Disk :=
  (d.writes (pageWrites crc b)).writeAt (metaOffset b) (metaBytes crc now b)

/-- Each byte of a torn write is the old one or the new one. -/
structure Torn (old new torn : Bytes) : Prop where
  length : torn.length = new.length
  byte : ∀ i : Nat, torn[i]? = new[i]? ∨ torn[i]? = old[i]?

/-- **A CRASH** inside a commit of the settled batch `b`, storage holding `d`
    before: what storage holds after it. -/
inductive Crash (now : Nat) (b : Batch) (d : Disk) : Disk → Prop where
  /-- before the first wait is over: any of the page writes -/
  | pages (ws : List (Nat × Bytes)) (h : ws.Sublist (pageWrites crc b)) :
      Crash now b d (d.writes ws)
  /-- while the meta is written, and the checksum shows it -/
  | torn (t : Bytes)
      (h : Torn ((d.writes (pageWrites crc b)).window (metaOffset b) b.pageSize)
        (metaBytes crc now b) t)
      (hcrc : ∀ slot, verify crc slot t ≠ .ok ()) :
      Crash now b d ((d.writes (pageWrites crc b)).writeAt (metaOffset b) t)
  /-- before the second wait is over, the meta having arrived -/
  | complete : Crash now b d (commitDisk crc now b d)

end Checksum

/-! ## Reading what was written -/

namespace Disk

variable {d : Disk} {off : Nat} {buf : Bytes}

@[simp] theorem length_window (d : Disk) (off n : Nat) : (d.window off n).length = n := by
  simp [window]

theorem window_congr {d d' : Disk} {off n : Nat}
    (h : ∀ i, off ≤ i → i < off + n → d'.get i = d.get i) : d'.window off n = d.window off n := by
  refine map_congr_left fun i hi => h (off + i) (by omega) ?_
  have := mem_range.mp hi
  omega

theorem slice_window {o w n : Nat} (h : o + w ≤ n) :
    slice o w (d.window off n) = d.window (off + o) w := by
  apply ext_getElem?
  intro i
  by_cases hi : i < w
  · rw [getElem?_slice _ hi, window, window, getElem?_map, getElem?_map,
      getElem?_range (by omega), getElem?_range hi]
    simp [Nat.add_assoc]
  · rw [getElem?_eq_none (by rw [length_slice (by simpa using h)]; omega),
      getElem?_eq_none (by simpa using Nat.le_of_not_lt hi)]

theorem len_writeAt_ge : d.len ≤ (d.writeAt off buf).len := le_max_left _ _

/-- Inside what was written. -/
theorem get_writeAt_in (d : Disk) (off : Nat) {i : Nat} (hi : i < buf.length) :
    (d.writeAt off buf).get (off + i) = buf.getD i 0 := by
  have hlen : off + i < (d.writeAt off buf).len := by
    show off + i < max d.len (off + buf.length)
    omega
  rw [get, if_pos hlen]
  show (if off ≤ off + i ∧ off + i < off + buf.length then buf.getD (off + i - off) 0
    else d.get (off + i)) = _
  rw [if_pos (by omega), Nat.add_sub_cancel_left]

/-- Outside of what was written. -/
theorem get_writeAt_out {i : Nat} (hi : i < off ∨ off + buf.length ≤ i) :
    (d.writeAt off buf).get i = d.get i := by
  have hout : ¬ (off ≤ i ∧ i < off + buf.length) := by omega
  by_cases hlen : i < (d.writeAt off buf).len
  · rw [get, if_pos hlen]
    exact if_neg hout
  · have hlen' : ¬ i < d.len := fun h => hlen (lt_of_lt_of_le h len_writeAt_ge)
    rw [get, if_neg hlen, get, if_neg hlen']

theorem window_writeAt_same (d : Disk) (off : Nat) (buf : Bytes) :
    (d.writeAt off buf).window off buf.length = buf := by
  apply ext_getElem?
  intro i
  by_cases hi : i < buf.length
  · rw [window, getElem?_map, getElem?_range hi, getElem?_eq_getElem hi]
    show some ((d.writeAt off buf).get (off + i)) = _
    rw [get_writeAt_in d off hi]
    simp [hi]
  · rw [getElem?_eq_none (by simpa using Nat.le_of_not_lt hi),
      getElem?_eq_none (Nat.le_of_not_lt hi)]

theorem readAt_writeAt_same (d : Disk) (off : Nat) (buf : Bytes) :
    (d.writeAt off buf).readAt off buf.length = some buf := by
  have hlen : off + buf.length ≤ (d.writeAt off buf).len := le_max_right _ _
  rw [readAt, if_pos hlen, window_writeAt_same]

theorem window_writeAt_out {o n : Nat} (h : o + n ≤ off ∨ off + buf.length ≤ o) :
    (d.writeAt off buf).window o n = d.window o n := by
  refine window_congr fun i h1 h2 => get_writeAt_out ?_
  omega

end Disk

end QuantyStorage
