import QuantyDb.KeyEncoding
import QuantyDb.LittleEndian

/-! # The blob store

    A blob is cut into chunks of one size, and each chunk is kept in the
    catalog under the hash of its bytes.  What a row keeps is the descriptor:
    the length of the blob and the hashes of its chunks, in order.

    The catalog tree is here the sorted map that it is to its callers, with the
    limit that the page size puts on its keys, and with what becomes of the puts
    to come, each of which may fail; a transaction works on a copy of the
    committed one, and its commit may fail too.  The hash is a parameter, since
    nothing looks inside it.  A source hands over its bytes in reads of any
    size, each of which may fail. -/

namespace QuantyBlob

open QuantyKey QuantyPage QuantyEncoding LittleEndian List

def CHUNK_SIZE : Nat := 1 <<< 20

def CHUNKS_PER_COMMIT : Nat := 8

/-- `[u8; 32]`. -/
structure ChunkHash where
  bytes : Bytes
  size : bytes.length = 32
  deriving DecidableEq

def chunkKey (hash : ChunkHash) : Key := encodeKey [.text "blob", .bytes hash.bytes]

def refsKey (hash : ChunkHash) : Key := encodeKey [.text "blobrefs", .bytes hash.bytes]

def encodeRefs (refs : UInt64) : Bytes := le 8 refs.toNat

/-! ## Descriptors -/

structure BlobRef where
  len : UInt64
  chunks : List ChunkHash
  deriving DecidableEq

/-- `as_chunks::<32>`, without the remainder. -/
def asChunks : Nat → Bytes → List ChunkHash
  | 0, _ => []
  | n + 1, bytes =>
      if h : 32 ≤ bytes.length then
        ⟨bytes.take 32, by rw [length_take, Nat.min_eq_left h]⟩ :: asChunks n (bytes.drop 32)
      else []

namespace BlobRef

/-- The form a row keeps.  The count is cast to `u32`. -/
def encode (r : BlobRef) : Bytes :=
  le 8 r.len.toNat ++ (le 4 r.chunks.length ++ r.chunks.flatMap ChunkHash.bytes)

def MALFORMED : Error := .corrupted none "malformed blob descriptor"

def decode (bytes : Bytes) : Except Error BlobRef :=
  if bytes.length < 8 then .error MALFORMED
  else if bytes.length < 12 then .error MALFORMED
  else
    let count := ofLe (slice 8 4 bytes)
    let rest := bytes.drop 12
    if rest.length ≠ count * 32 then .error MALFORMED
    else .ok ⟨UInt64.ofNat (ofLe (bytes.take 8)), asChunks (rest.length / 32) rest⟩

end BlobRef

/-! ## The catalog tree -/

/-- The entries of the catalog, and how each of the puts to come fails, if it
    does. -/
structure Catalog where
  entries : List (Key × Bytes)
  fails : Nat → Option Error

/-- No entries, and nothing that fails. -/
def Catalog.empty : Catalog := ⟨[], fun _ => none⟩

def catalogGet (pageSize : Nat) (c : Catalog) (key : Key) : Option Bytes :=
  if maxKeyLen pageSize < key.length then none else AssocList.get key c.entries

def catalogPut (pageSize : Nat) (c : Catalog) (key : Key) (value : Bytes) : Except Error Catalog :=
  if key.length = 0 then .error (.invalidArgument "keys must not be empty")
  else if maxKeyLen pageSize < key.length then
    .error (.invalidArgument "key exceeds max_key_len for this page size")
  else
    match c.fails 0 with
    | some e => .error e
    | none => .ok ⟨AssocList.put key value c.entries, fun i => c.fails (i + 1)⟩

section
variable {pageSize : Nat} {c c' : Catalog} {key : Key} {value : Bytes}

theorem catalogPut_eq_ok (h : catalogPut pageSize c key value = .ok c') :
    key.length ≤ maxKeyLen pageSize
      ∧ c' = ⟨AssocList.put key value c.entries, fun i => c.fails (i + 1)⟩ := by
  rw [catalogPut] at h
  split at h
  · nomatch h
  split at h
  · nomatch h
  · next hlong =>
    cases hfails : c.fails 0 with
    | some e =>
        rw [hfails] at h
        nomatch h
    | none =>
        rw [hfails] at h
        exact ⟨not_lt.mp hlong, (Except.ok.inj h).symm⟩

/-- What is read behind a put that returned. -/
theorem catalogGet_catalogPut (h : catalogPut pageSize c key value = .ok c') (key' : Key) :
    catalogGet pageSize c' key'
      = if key' = key then some value else catalogGet pageSize c key' := by
  obtain ⟨hlen, rfl⟩ := catalogPut_eq_ok h
  rw [catalogGet, catalogGet, AssocList.get_put]
  by_cases hkey : key' = key
  · rw [if_pos hkey, if_pos hkey, hkey, if_neg (not_lt.mpr hlen)]
  · rw [if_neg hkey, if_neg hkey]

end

/-! ## Sources -/

/-- The bytes still to come, and what each of the reads to come makes of them:
    an error, or at most so many bytes. -/
structure Source where
  data : Bytes
  reads : Nat → Except Error Nat

/-- `read` into a buffer of `room` bytes.  It hands over nothing only at the
    end. -/
def Source.read (s : Source) (room : Nat) : Except Error (Bytes × Source) :=
  match s.reads 0 with
  | .error e => .error e
  | .ok n =>
      .ok (s.data.take (min (max 1 n) room),
        ⟨s.data.drop (min (max 1 n) room), fun i => s.reads (i + 1)⟩)

theorem Source.read_eq {s s' : Source} {room : Nat} {got : Bytes}
    (h : s.read room = .ok (got, s')) : got ++ s'.data = s.data ∧ got.length ≤ room := by
  rw [Source.read] at h
  cases hr : s.reads 0 with
  | error e =>
      rw [hr] at h
      nomatch h
  | ok n =>
      rw [hr] at h
      cases h
      refine ⟨take_append_drop _ _, ?_⟩
      rw [length_take]
      omega

/-- `fill`: read until the buffer is full or the source is done. -/
def fill (s : Source) (room : Nat) : Except Error (Bytes × Source) :=
  if room = 0 then .ok ([], s)
  else
    match s.read room with
    | .error e => .error e
    | .ok ([], s') => .ok ([], s')
    | .ok (b :: got, s') =>
        match fill s' (room - (b :: got).length) with
        | .error e => .error e
        | .ok (more, s'') => .ok (b :: got ++ more, s'')
  termination_by room
  decreasing_by
    rw [length_cons]
    omega

theorem fill_append {s s' : Source} {room : Nat} {got : Bytes} (h : fill s room = .ok (got, s')) :
    got ++ s'.data = s.data := by
  induction s, room using fill.induct generalizing got with
  | case1 s =>
      rw [fill, if_pos rfl] at h
      cases h
      rfl
  | case2 s room hroom e hread =>
      rw [fill, if_neg hroom, hread] at h
      nomatch h
  | case3 s room hroom s₁ hread =>
      rw [fill, if_neg hroom, hread] at h
      cases h
      exact (Source.read_eq hread).1
  | case4 s room hroom b first s₁ hread e hfill ih =>
      rw [fill, if_neg hroom, hread] at h
      simp only [hfill] at h
      nomatch h
  | case5 s room hroom b first s₁ hread more s₂ hfill ih =>
      rw [fill, if_neg hroom, hread] at h
      simp only [hfill] at h
      cases h
      rw [append_assoc, ih hfill, (Source.read_eq hread).1]

/-! ## Storing and reading -/

/-- A database: its catalog, and how each of the commits to come fails, if it
    does. -/
structure Db where
  pageSize : Nat
  catalog : Catalog
  commits : Nat → Option Error

section
variable (hashChunk : Bytes → ChunkHash)

/-- `put_chunk`: store a chunk under its own hash, or leave the one there. -/
def putChunk (pageSize : Nat) (tx : Catalog) (bytes : Bytes) : Except Error (ChunkHash × Catalog) :=
  let hash := hashChunk bytes
  match catalogGet pageSize tx (chunkKey hash) with
  | some _ => .ok (hash, tx)
  | none => do
      let tx ← catalogPut pageSize tx (chunkKey hash) bytes
      let tx ← catalogPut pageSize tx (refsKey hash) (encodeRefs 0)
      return (hash, tx)

/-- What `write_blob` has in hand between two chunks. -/
structure Upload where
  db : Db
  tx : Catalog
  chunks : List ChunkHash
  len : UInt64
  pending : Nat

/-- Commit, and begin again on what was committed. -/
def Upload.commit (u : Upload) : Except Error Upload :=
  match u.db.commits 0 with
  | some e => .error e
  | none => .ok { u with
      db := { u.db with catalog := u.tx, commits := fun i => u.db.commits (i + 1) }
      pending := 0 }

/-- One turn of the loop of `write_blob`, once its buffer is filled. -/
def Upload.push (u : Upload) (chunk : Bytes) : Except Error Upload := do
  let (hash, tx) ← putChunk hashChunk u.db.pageSize u.tx chunk
  let u := { u with
    tx := tx
    chunks := u.chunks ++ [hash]
    len := u.len + UInt64.ofNat chunk.length
    pending := u.pending + 1 }
  if u.pending = CHUNKS_PER_COMMIT then u.commit else return u

/-- The loop of `write_blob`.  An error comes with the database as the commits
    before it left it. -/
def Upload.loop (u : Upload) (source : Source) : Except (Error × Db) Upload :=
  match _h : fill source CHUNK_SIZE with
  | .error e => .error (e, u.db)
  | .ok ([], _) => .ok u
  | .ok (b :: chunk, rest) =>
      match u.push hashChunk (b :: chunk) with
      | .error e => .error (e, u.db)
      | .ok u =>
          if (b :: chunk).length < CHUNK_SIZE then .ok u
          else u.loop rest
  termination_by source.data.length
  decreasing_by
    rw [← fill_append ‹fill source CHUNK_SIZE = _›, length_append, length_cons]
    omega

/-- What is pending when the source is done is committed. -/
def Upload.settle (u : Upload) : Except (Error × Db) Upload :=
  if 0 < u.pending then u.commit.mapError (·, u.db) else .ok u

def writeBlob (db : Db) (source : Source) : Except (Error × Db) (BlobRef × Db) := do
  let u ← Upload.loop hashChunk ⟨db, db.catalog, [], 0, 0⟩ source
  let u ← u.settle
  return (⟨u.len, u.chunks⟩, u.db)

end

/-- The loop of `read_blob`: what was written out, and how many bytes. -/
def readChunks (db : Db) : List ChunkHash → Bytes × UInt64 → Except Error (Bytes × UInt64)
  | [], out => .ok out
  | hash :: rest, (out, written) =>
      match catalogGet db.pageSize db.catalog (chunkKey hash) with
      | none => .error (.corrupted none "blob names a chunk that is not here")
      | some bytes => readChunks db rest (out ++ bytes, written + UInt64.ofNat bytes.length)

def readBlob (db : Db) (blob : BlobRef) : Except Error (Bytes × UInt64) := do
  let (out, written) ← readChunks db blob.chunks ([], 0)
  if written ≠ blob.len then
    .error (.corrupted none "blob chunks do not add up to the length it claims")
  else return (out, written)

end QuantyBlob
