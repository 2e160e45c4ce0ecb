import QuantyDb.PagerModel
import QuantyDb.LittleEndian

/-! # Pages and metas as bytes

    Every page starts with a header of sixteen bytes: a checksum over all that
    follows it, the page type, flags, a count, and the id of the commit that
    sealed the page.  Numbers are little-endian.  What a page does not use is
    zero.

    The checksum is a parameter: nothing here depends on which function of the
    bytes it is. -/

namespace QuantyCodec

open QuantyKey QuantyPage QuantyPager LittleEndian List

/-! ## Pages -/

/-- A cell starts with the length of its key, a flag and the key. -/
def keyCell (key : Key) (flag : UInt8) : Bytes := le 2 key.length ++ (flag :: key.bytes)

def VFLAG_INLINE : UInt8 := 0

def VFLAG_OVERFLOW : UInt8 := 1

/-- `write_leaf_cell`. -/
def leafCell (key : Key) : ValueRef → Bytes
  | .inline v => keyCell key VFLAG_INLINE ++ (le 4 v.length ++ v)
  | .overflow head len => keyCell key VFLAG_OVERFLOW ++ layout [(8, head), (8, len)]

def branchCell (key : Key) (child : PageId) : Bytes := keyCell key 0 ++ le 8 child

/-- The number of a page type; `0` is the type of a meta page. -/
def Page.tag : Page → Nat
  | .node (.branch _ _) => 1
  | .node (.leaf _) => 2
  | .overflow _ _ => 3
  | .freeList _ _ => 4
  | .commit _ => 6

/-- The count in the header, for the kinds of page that set it. -/
def Page.count : Page → Nat
  | .node (.branch _ es) => es.length
  | .node (.leaf es) => es.length
  | .freeList _ ids => ids.length
  | _ => 0

/-- What follows the header. -/
def Page.body : Page → Bytes
  | .node (.leaf es) => es.flatMap (fun e => leafCell e.1 e.2)
  | .node (.branch f es) => le 8 f ++ es.flatMap (fun e => branchCell e.1 e.2)
  | .overflow next part => le 8 next ++ (le 2 part.length ++ part)
  | .freeList next ids => le 8 next ++ (le 2 ids.length ++ ids.flatMap (le 8))
  | .commit info => layout [(8, info.commitId), (8, info.parentId), (8, info.dataRoot),
      (8, info.catalogRoot), (8, info.parentPage), (8, info.unixTsMs)]

/-- The rest of a page is zero. -/
def pad (n : Nat) (l : Bytes) : Bytes := l.take n ++ List.replicate (n - l.length) 0

/-- The header past the checksum. -/
def header (tag count lsn : Nat) : Bytes := layout [(1, tag), (1, 0), (2, count), (8, lsn)]

section Checksum

variable (crc : Bytes → UInt32)

/-- `page::seal`: the checksum goes in front. -/
def sealBytes (rest : Bytes) : Bytes := le 4 (crc rest).toNat ++ rest

/-- The bytes of a sealed page. -/
def image (ps : Nat) (s : Sealed) : Bytes :=
  sealBytes crc (header (Page.tag s.page) (Page.count s.page) s.lsn
    ++ pad (ps - PAGE_HEADER_LEN) (Page.body s.page))

/-- `{:#010x}`. -/
def hex (n : Nat) : String :=
  let digits := Nat.toDigits 16 n
  "0x" ++ String.ofList (List.replicate (8 - digits.length) '0' ++ digits)

/-- `page::verify`. -/
def verify (id : PageId) (buf : Bytes) : Except Error Unit :=
  if ofLe (slice 0 4 buf) ≠ (crc (buf.drop 4)).toNat then
    .error (.corrupted (some id)
      ("checksum mismatch (stored " ++ hex (ofLe (slice 0 4 buf)) ++ ", computed "
        ++ hex (crc (buf.drop 4)).toNat ++ ")"))
  else .ok ()

/-! ## Metas -/

/-- `QUANTYDB` -/
def MAGIC : Bytes := [0x51, 0x55, 0x41, 0x4E, 0x54, 0x59, 0x44, 0x42]

def FORMAT_VERSION : Nat := 2

/-- The fields of a meta behind the magic, from offset 24 on. -/
def Meta.fields (m : Meta) : List (Nat × Nat) :=
  [(4, FORMAT_VERSION), (4, m.pageSize), (8, m.txid), (8, m.dataRoot), (8, m.catalogRoot),
    (8, m.freelistRoot), (8, m.pageCount), (8, m.unixTsMs), (8, m.commitPage), (8, m.refsRoot)]

/-- `Meta::encode`. -/
def Meta.encode (m : Meta) : Bytes :=
  sealBytes crc (header 0 0 m.txid
    ++ pad (m.pageSize - PAGE_HEADER_LEN) (MAGIC ++ layout (Meta.fields m)))

def getU32 (buf : Bytes) (off : Nat) : Nat := ofLe (slice off 4 buf)

def getU64 (buf : Bytes) (off : Nat) : Nat := ofLe (slice off 8 buf)

/-- The fields as they stand in the buffer. -/
def Meta.read (buf : Bytes) : Meta where
  pageSize := getU32 buf 28
  txid := getU64 buf 32
  dataRoot := getU64 buf 40
  catalogRoot := getU64 buf 48
  freelistRoot := getU64 buf 56
  pageCount := getU64 buf 64
  unixTsMs := getU64 buf 72
  commitPage := getU64 buf 80
  refsRoot := getU64 buf 88

/-- A root that is neither none nor a page of the file. -/
def outOfRange (pageCount : Nat) (root : PageId) : Bool :=
  decide (root ≠ NIL_PAGE) && (decide (root < 2) || decide (pageCount ≤ root))

/-- The ranges that `decode` checks; the refs root is not among them. -/
def Meta.checkRanges (slot : PageId) (m : Meta) : Except Error Meta :=
  if m.pageCount < 2 then .error (.corrupted (some slot) "page count below the two meta pages")
  else
    match [m.dataRoot, m.catalogRoot, m.freelistRoot, m.commitPage].find?
        (outOfRange m.pageCount) with
    | some root =>
        .error (.corrupted (some slot) ("root pointer " ++ toString root ++ " out of range"))
    | none => .ok m

/-- `Meta::decode`. -/
def Meta.decode (slot : PageId) (buf : Bytes) : Except Error Meta :=
  match verify crc slot buf with
  | .error e => .error e
  | .ok _ =>
      if slice 16 8 buf ≠ MAGIC then .error (.invalidFormat "bad magic, not a quantydb database")
      else if getU32 buf 24 ≠ FORMAT_VERSION then
        .error (.invalidFormat ("format version " ++ toString (getU32 buf 24)
          ++ " is not supported (this build reads " ++ toString FORMAT_VERSION
          ++ "; older formats are not migrated, see docs/FORMAT.md)"))
      else if !validPageSize (getU32 buf 28) then
        .error (.corrupted (some slot) ("implausible page size " ++ toString (getU32 buf 28)))
      else if getU32 buf 28 ≠ buf.length then
        .error (.corrupted (some slot) "page size does not match meta location")
      else Meta.checkRanges slot (Meta.read buf)

end Checksum

/-! ## What is always so -/

@[simp] theorem length_pad (n : Nat) (l : Bytes) : (pad n l).length = n := by
  rw [pad, length_append, length_take, length_replicate]
  omega

@[simp] theorem length_header (tag count lsn : Nat) : (header tag count lsn).length = 12 := by
  simp [header, length_layout]

section Lemmas

variable {crc : Bytes → UInt32}

theorem length_image {ps : Nat} (h : PAGE_HEADER_LEN ≤ ps) (s : Sealed) :
    (image crc ps s).length = ps := by
  simp only [PAGE_HEADER_LEN] at h
  simp only [image, sealBytes, length_append, length_le, length_header, length_pad,
    PAGE_HEADER_LEN]
  omega

theorem length_encode {m : Meta} (h : PAGE_HEADER_LEN ≤ m.pageSize) :
    (Meta.encode crc m).length = m.pageSize := by
  simp only [PAGE_HEADER_LEN] at h
  simp only [Meta.encode, sealBytes, length_append, length_le, length_header, length_pad,
    PAGE_HEADER_LEN]
  omega

/-- Sealing is what verifying checks. -/
theorem verify_sealBytes (id : PageId) (rest : Bytes) :
    verify crc id (sealBytes crc rest) = .ok () := by
  have hstored : slice 0 4 (sealBytes crc rest) = le 4 (crc rest).toNat :=
    slice_append (A := []) rfl (length_le 4 _)
  have hrest : (sealBytes crc rest).drop 4 = rest := by
    rw [sealBytes]
    exact drop_left' (length_le 4 _)
  rw [verify, hstored, hrest, ofLe_le (crc rest).toNat_lt, if_neg (not_not.mpr rfl)]

/-- A slice of what follows the header is a slice of the body. -/
theorem slice_body {tag count lsn off w : Nat} {body : Bytes} :
    slice (16 + off) w (sealBytes crc (header tag count lsn ++ body)) = slice off w body := by
  have hhead : (le 4 (crc (header tag count lsn ++ body)).toNat
      ++ header tag count lsn).length = 16 := by
    rw [length_append, length_le, length_header]
  rw [sealBytes, ← append_assoc, slice, slice, ← drop_drop, ← hhead, drop_left]

end Lemmas

end QuantyCodec
