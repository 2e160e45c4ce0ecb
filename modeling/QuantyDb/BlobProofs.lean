import QuantyDb.BlobModel
import QuantyDb.KeyEncodingProofs
import QuantyDb.BtreeRunProofs
import QuantyDb.Outcome

/-! # Blobs come back as they went in

    Neither a read that comes short nor a commit in the middle of an upload
    shows in what is stored: `write_blob` does with the bytes of its source
    what it would do with their cuts of a chunk each (`loop_steady`).  In an
    upload that returns every chunk is kept under its own hash, whether it was
    there before or not, as long as no two of the chunks in play share a hash
    (`Upload.Holds`), and reading the hashes in order gives the cuts back.

    A put to the catalog is a put to a B-tree, and fails when that does
    (`putChunk_tree`). -/

namespace QuantyBlob

open QuantyKey QuantyPage QuantyEncoding LittleEndian List AssocList ChunkHash BlobRef Outcome

/-! ## Descriptors -/

theorem length_flatMap_bytes (l : List ChunkHash) :
    (l.flatMap bytes).length = 32 * l.length := by
  induction l with
  | nil => rfl
  | cons h l ih =>
      rw [flatMap_cons, length_append, h.size, ih, length_cons]
      omega

theorem asChunks_flatMap (l : List ChunkHash) :
    asChunks l.length (l.flatMap bytes) = l := by
  induction l with
  | nil => rfl
  | cons h l ih =>
      have hlen : 32 ≤ (h.bytes ++ l.flatMap bytes).length := by
        rw [length_append, h.size]
        omega
      have htake : (h.bytes ++ l.flatMap bytes).take 32 = h.bytes :=
        take_left' h.size
      have hdrop : (h.bytes ++ l.flatMap bytes).drop 32 = l.flatMap bytes :=
        drop_left' h.size
      rw [flatMap_cons, length_cons, asChunks, dif_pos hlen, hdrop, ih]
      simp only [htake]

theorem flatMap_asChunks {n : Nat} {bytes : Bytes} (h : bytes.length = n * 32) :
    (asChunks n bytes).flatMap ChunkHash.bytes = bytes ∧ (asChunks n bytes).length = n := by
  induction n generalizing bytes with
  | zero => exact ⟨(length_eq_zero_iff.mp (by omega)).symm, rfl⟩
  | succ n ih =>
      have hlen : 32 ≤ bytes.length := by omega
      obtain ⟨hflat, hcount⟩ := @ih (bytes.drop 32) (by rw [length_drop]; omega)
      rw [asChunks, dif_pos hlen, flatMap_cons, hflat, length_cons, hcount]
      exact ⟨take_append_drop 32 bytes, rfl⟩

namespace BlobRef

theorem length_encode (r : BlobRef) : r.encode.length = 12 + 32 * r.chunks.length := by
  rw [encode, length_append, length_append, length_le, length_le, length_flatMap_bytes]
  omega

/-- What `decode` sees in a descriptor it was not told the length of. -/
theorem decode_of_length {b : Bytes} (h : 12 ≤ b.length) :
    decode b =
      if (b.drop 12).length = ofLe (slice 8 4 b) * 32 then
        .ok ⟨UInt64.ofNat (ofLe (b.take 8)), asChunks ((b.drop 12).length / 32) (b.drop 12)⟩
      else .error MALFORMED := by
  rw [decode, if_neg (by omega), if_neg (by omega), ite_not]

/-- A count that its four bytes hold is read back; a larger one is not. -/
theorem decode_encode (r : BlobRef) :
    decode (encode r) = if r.chunks.length < 2 ^ 32 then .ok r else .error MALFORMED := by
  have hlen := length_encode r
  have hcount : ofLe (slice 8 4 (encode r)) = r.chunks.length % 256 ^ 4 := by
    rw [encode, slice_append (length_le 8 _) (length_le 4 _), ofLe_le_mod]
  have hfirst : (encode r).take 8 = le 8 r.len.toNat := take_left' (length_le 8 _)
  have hrest : (encode r).drop 12 = r.chunks.flatMap bytes := by
    rw [encode, ← append_assoc]
    exact drop_left' (by rw [length_append, length_le, length_le])
  rw [decode_of_length (by omega), hcount, hfirst, hrest, length_flatMap_bytes,
    ofLe_le r.len.toNat_lt, UInt64.ofNat_toNat, Nat.mul_div_cancel_left _ (by decide),
    asChunks_flatMap]
  by_cases h : r.chunks.length < 2 ^ 32
  · rw [if_pos h, if_pos (by omega)]
  · rw [if_neg h, if_neg (by omega)]

/-- **A DESCRIPTOR HAS ONE SPELLING**: `decode` answers what was encoded, and
    refuses every other byte string. -/
theorem decode_cases (b : Bytes) :
    (∃ r : BlobRef, r.chunks.length < 2 ^ 32 ∧ encode r = b ∧ decode b = .ok r)
      ∨ decode b = .error MALFORMED := by
  by_cases hlen : 12 ≤ b.length
  · rw [decode_of_length hlen]
    by_cases hcount : (b.drop 12).length = ofLe (slice 8 4 b) * 32
    · refine .inl ⟨_, ?_, ?_, if_pos hcount⟩
      all_goals
        obtain ⟨hflat, hn⟩ := flatMap_asChunks hcount
        simp only [hcount, Nat.mul_div_cancel _ (show 0 < 32 by decide)]
      · have := ofLe_lt (slice 8 4 b)
        rw [hn, length_slice (by omega)] at *
        omega
      · have h8 : (b.take 8).length = 8 := by rw [length_take]; omega
        have hlt := ofLe_lt (b.take 8)
        have h4 : (slice 8 4 b).length = 4 := length_slice (by omega)
        have hlen8 := le_ofLe (b.take 8)
        have hlen4 := le_ofLe (slice 8 4 b)
        rw [h8] at hlt hlen8
        rw [h4] at hlen4
        rw [encode, hflat, hn, UInt64.toNat_ofNat', Nat.mod_eq_of_lt (by omega), hlen8, hlen4,
          slice, ← drop_drop (i := 4) (j := 8), take_append_drop,
          take_append_drop]
    · exact .inr (if_neg hcount)
  · refine .inr ?_
    rw [decode]
    by_cases h8 : b.length < 8
    · rw [if_pos h8]
    · rw [if_neg h8, if_pos (by omega)]

end BlobRef

/-! ## Sources that do not fail -/

/-- A source whose reads come as short as they like, and never fail. -/
def steady (data : Bytes) (sizes : Nat → Nat) : Source := ⟨data, fun i => .ok (sizes i)⟩

/-- What is left of a buffer takes what is left of the bytes. -/
theorem take_rest {n room : Nat} (h : n ≤ room) (l : Bytes) :
    l.take n ++ (l.drop n).take (room - (l.take n).length) = l.take room
      ∧ (l.drop n).drop (room - (l.take n).length) = l.drop room := by
  rw [length_take]
  rcases Nat.le_total n l.length with hl | hl
  · have hroom : room = n + (room - n) := by omega
    rw [Nat.min_eq_left hl, drop_drop, ← hroom, ← take_add, ← hroom]
    exact ⟨rfl, rfl⟩
  · rw [drop_of_length_le hl, drop_of_length_le (show l.length ≤ room by omega),
      take_of_length_le hl, take_of_length_le (show l.length ≤ room by omega),
      take_nil, drop_nil, append_nil]
    exact ⟨rfl, rfl⟩

/-- Short reads add up: the buffer is filled as far as the bytes go. -/
theorem fill_steady (room : Nat) : ∀ (data : Bytes) (sizes : Nat → Nat), ∃ sizes',
    fill (steady data sizes) room = .ok (data.take room, steady (data.drop room) sizes') := by
  induction room using Nat.strong_induction_on with
  | _ room ih =>
    intro data sizes
    have hread : (steady data sizes).read room =
        .ok (data.take (min (max 1 (sizes 0)) room),
          steady (data.drop (min (max 1 (sizes 0)) room)) fun i => sizes (i + 1)) := rfl
    generalize hn : min (max 1 (sizes 0)) room = n at hread
    by_cases hroom : room = 0
    · exact ⟨sizes, by rw [fill, if_pos hroom, hroom]; rfl⟩
    cases data with
    | nil =>
        refine ⟨fun i => sizes (i + 1), ?_⟩
        rw [fill, if_neg hroom, hread]
        simp only [take_nil, drop_nil]
    | cons b data =>
        have hcons : (b :: data).take n = b :: data.take (n - 1) := take_cons (by omega)
        obtain ⟨hbytes, hrest⟩ := take_rest (show n ≤ room by omega) (b :: data)
        obtain ⟨sizes', hfill⟩ := ih (room - ((b :: data).take n).length)
          (by rw [hcons, length_cons]; omega) ((b :: data).drop n) fun i => sizes (i + 1)
        rw [hrest] at hfill
        refine ⟨sizes', ?_⟩
        rw [fill, if_neg hroom, hread, ← hbytes]
        rw [hcons] at hfill ⊢
        simp only [hfill]

/-! ## The cuts of a source -/

/-- The bytes, a chunk at a time. -/
def cuts (data : Bytes) : List Bytes :=
  if data = [] then [] else data.take CHUNK_SIZE :: cuts (data.drop CHUNK_SIZE)
  termination_by data.length
  decreasing_by
    have := length_pos_of_ne_nil ‹_›
    rw [length_drop, CHUNK_SIZE]
    omega

theorem flatten_cuts (data : Bytes) : (cuts data).flatten = data := by
  induction data using cuts.induct with
  | case1 => rw [cuts, if_pos rfl]; rfl
  | case2 data hne ih =>
      rw [cuts, if_neg hne, flatten_cons, ih, take_append_drop]

/-- The loop of `write_blob` over chunks that are already cut. -/
def Upload.pushAll (hashChunk : Bytes → ChunkHash) (u : Upload) :
    List Bytes → Except (Error × Db) Upload
  | [] => .ok u
  | chunk :: rest =>
      match u.push hashChunk chunk with
      | .error e => .error (e, u.db)
      | .ok u => u.pushAll hashChunk rest

/-- **HOW THE READS CAME DOES NOT SHOW**: an upload is decided by the cuts of
    the bytes. -/
theorem loop_steady (hashChunk : Bytes → ChunkHash) (data : Bytes) :
    ∀ (u : Upload) (sizes : Nat → Nat),
      u.loop hashChunk (steady data sizes) = u.pushAll hashChunk (cuts data) := by
  induction data using cuts.induct with
  | case1 =>
      intro u sizes
      obtain ⟨sizes', hfill⟩ := fill_steady CHUNK_SIZE [] sizes
      rw [Upload.loop, hfill, cuts, if_pos rfl, Upload.pushAll]
      rfl
  | case2 data hne ih =>
      intro u sizes
      obtain ⟨sizes', hfill⟩ := fill_steady CHUNK_SIZE data sizes
      obtain ⟨b, chunk, hcut⟩ := exists_cons_of_ne_nil
        (show data.take CHUNK_SIZE ≠ [] from fun h => (take_eq_nil_iff.mp h).elim nofun hne)
      rw [cuts, if_neg hne, Upload.pushAll, Upload.loop, hfill]
      rw [hcut]
      cases hpush : u.push hashChunk (b :: chunk) with
      | error e => simp only [hpush]
      | ok u' =>
          simp only [hpush]
          by_cases hshort : (b :: chunk).length < CHUNK_SIZE
          · have hend : data.drop CHUNK_SIZE = [] := by
              rw [← hcut, length_take] at hshort
              exact drop_of_length_le (by omega)
            rw [if_pos hshort, hend, cuts, if_pos rfl, Upload.pushAll]
          · rw [if_neg hshort, ih]

/-! ## Keys of chunks -/

theorem chunkKey_injective : Function.Injective chunkKey := by
  intro h h' heq
  have hvs := encodeKey_injective heq
  cases h
  cases h'
  simp only [List.cons.injEq, Value.bytes.injEq, and_true, true_and] at hvs
  simp only [hvs]

theorem chunkKey_ne_refsKey (h h' : ChunkHash) : chunkKey h ≠ refsKey h' := by
  intro heq
  have hvs := encodeKey_injective heq
  simp at hvs

theorem length_encodeKey_two (s : String) (b : Bytes) :
    (encodeKey [.text s, .bytes b]).length
      = (Value.text s).encode.length + (1 + (escape b).length) := by
  show List.length ((Value.text s).encode ++ (TAG_BYTES :: escape b ++ [])) = _
  rw [length_append, append_nil, length_cons, Nat.add_comm 1]

theorem length_chunkKey (h : ChunkHash) : (chunkKey h).length = 7 + (escape h.bytes).length := by
  have htag : (Value.text "blob").encode.length = 6 := by decide
  rw [chunkKey, length_encodeKey_two, htag]
  omega

theorem length_refsKey (h : ChunkHash) : (refsKey h).length = 11 + (escape h.bytes).length := by
  have htag : (Value.text "blobrefs").encode.length = 10 := by decide
  rw [refsKey, length_encodeKey_two, htag]
  omega

theorem length_escape_le (b : Bytes) : (escape b).length ≤ 2 * b.length + 1 := by
  induction b with
  | nil => decide
  | cons x b ih =>
      rw [escape]
      split
      all_goals
        simp only [length_cons]
        omega

/-- A page holds the keys of a chunk, unless it is the smallest and the hash is
    full of zero bytes. -/
def Room (pageSize : Nat) (hash : ChunkHash) : Prop := (refsKey hash).length ≤ maxKeyLen pageSize

theorem room_of_pageSize {pageSize : Nat} (hps : 1024 ≤ pageSize) (hash : ChunkHash) :
    Room pageSize hash := by
  have := length_escape_le hash.bytes
  have := hash.size
  rw [Room, length_refsKey, maxKeyLen]
  omega

/-! ## What an upload keeps true -/

section
variable (hashChunk : Bytes → ChunkHash) (pageSize : Nat)

/-- Every chunk in the catalog is kept under its own hash. -/
def Addressed (c : Catalog) : Prop :=
  ∀ hash chunk, catalogGet pageSize c (chunkKey hash) = some chunk → hashChunk chunk = hash

/-- The chunk is in the catalog. -/
def Stored (c : Catalog) (chunk : Bytes) : Prop :=
  catalogGet pageSize c (chunkKey (hashChunk chunk)) = some chunk

/-- What `put_chunk` does when it returns: the chunk is in the catalog, and what
    was there. -/
theorem putChunk_spec {tx tx' : Catalog} {chunk : Bytes} {hash : ChunkHash}
    (haddr : Addressed hashChunk pageSize tx)
    (hone : ∀ other, Stored hashChunk pageSize tx other → hashChunk other = hashChunk chunk →
      other = chunk)
    (h : putChunk hashChunk pageSize tx chunk = .ok (hash, tx')) :
    hash = hashChunk chunk ∧ Addressed hashChunk pageSize tx'
      ∧ ∀ other, Stored hashChunk pageSize tx' other
        ↔ Stored hashChunk pageSize tx other ∨ other = chunk := by
  rw [putChunk] at h
  cases hold : catalogGet pageSize tx (chunkKey (hashChunk chunk)) with
  | some old =>
      rw [hold] at h
      obtain ⟨rfl, rfl⟩ := Prod.mk.inj (Except.ok.inj h)
      have hhash := haddr _ _ hold
      obtain rfl := hone old (by rw [Stored, hhash, hold]) hhash
      exact ⟨rfl, haddr, fun other => ⟨.inl, fun h => h.elim id fun h => h ▸ hold⟩⟩
  | none =>
      rw [hold] at h
      obtain ⟨tx₁, hput, h⟩ := bind_eq_ok.mp h
      obtain ⟨tx₂, hrefs, h⟩ := bind_eq_ok.mp h
      obtain ⟨rfl, rfl⟩ := Prod.mk.inj (Except.ok.inj h)
      -- the count has a key of its own
      have hget (hash : ChunkHash) : catalogGet pageSize tx₂ (chunkKey hash)
          = if hash = hashChunk chunk then some chunk
            else catalogGet pageSize tx (chunkKey hash) := by
        rw [catalogGet_catalogPut hrefs, if_neg (chunkKey_ne_refsKey _ _),
          catalogGet_catalogPut hput]
        exact if_congr chunkKey_injective.eq_iff rfl rfl
      refine ⟨rfl, fun hash other hother => ?_, fun other => ?_⟩
      · rw [hget] at hother
        split at hother
        · next hk =>
          cases hother
          exact hk.symm
        · exact haddr _ _ hother
      · rw [Stored, hget]
        split
        · next hk =>
          rw [Stored, hk, hold]
          constructor
          · exact fun h => .inr (Option.some.inj h).symm
          · rintro (h | rfl)
            · nomatch h
            · rfl
        · next hk =>
          constructor
          · exact .inl
          · rintro (h | rfl)
            · exact h
            · exact absurd rfl hk

/-- A put of a key that fits returns while no put fails. -/
theorem catalogPut_returns {c : Catalog} (key : Key) (value : Bytes) (hpos : 0 < key.length)
    (hle : key.length ≤ maxKeyLen pageSize) (hfails : ∀ i, c.fails i = none) :
    ∃ c', catalogPut pageSize c key value = .ok c' ∧ ∀ i, c'.fails i = none := by
  rw [catalogPut, if_neg hpos.ne', if_neg (not_lt.mpr hle), hfails 0]
  exact ⟨_, rfl, fun i => hfails (i + 1)⟩

theorem putChunk_returns {tx : Catalog} {chunk : Bytes} (hroom : Room pageSize (hashChunk chunk))
    (hfails : ∀ i, tx.fails i = none) :
    ∃ x, putChunk hashChunk pageSize tx chunk = .ok x ∧ ∀ i, x.2.fails i = none := by
  rw [Room, length_refsKey] at hroom
  rw [putChunk]
  cases catalogGet pageSize tx (chunkKey (hashChunk chunk)) with
  | some old => exact ⟨_, rfl, hfails⟩
  | none =>
      obtain ⟨tx₁, hput, hfails₁⟩ := catalogPut_returns pageSize (chunkKey (hashChunk chunk))
        chunk (by rw [length_chunkKey]; omega) (by rw [length_chunkKey]; omega) hfails
      obtain ⟨tx₂, hrefs, hfails₂⟩ := catalogPut_returns pageSize (refsKey (hashChunk chunk))
        (encodeRefs 0) (by rw [length_refsKey]; omega) (by rw [length_refsKey]; omega) hfails₁
      refine ⟨(hashChunk chunk, tx₂), ?_, hfails₂⟩
      dsimp only
      rw [hput, ok_bind, hrefs]
      rfl

end

section
variable (hashChunk : Bytes → ChunkHash)

/-- What holds after the chunks `done` of an upload to `db`. -/
structure Upload.Holds (db : Db) (done : List Bytes) (u : Upload) : Prop where
  pageSize : u.db.pageSize = db.pageSize
  addressed : Addressed hashChunk db.pageSize u.tx
  stored : ∀ chunk, Stored hashChunk db.pageSize u.tx chunk
    ↔ Stored hashChunk db.pageSize db.catalog chunk ∨ chunk ∈ done
  chunks : u.chunks = done.map hashChunk
  len : u.len = UInt64.ofNat done.flatten.length
  settled : u.pending = 0 → u.db.catalog = u.tx

/-- No chunk of the list shares its hash with another, or with one stored. -/
def Distinct (db : Db) (l : List Bytes) : Prop :=
  ∀ a ∈ l, ∀ b, Stored hashChunk db.pageSize db.catalog b ∨ b ∈ l →
    hashChunk b = hashChunk a → b = a

variable {hashChunk} {db : Db} {u u' : Upload} {done rest : List Bytes} {chunk : Bytes}

/-- A commit that returns moves what the transaction holds into the database. -/
theorem Upload.Holds.commit (h : u.Holds hashChunk db done) (hcommit : u.commit = .ok u') :
    u'.Holds hashChunk db done ∧ u'.pending = 0 := by
  rw [Upload.commit] at hcommit
  split at hcommit
  · nomatch hcommit
  · obtain rfl := Except.ok.inj hcommit
    exact ⟨⟨h.pageSize, h.addressed, h.stored, h.chunks, h.len, fun _ => rfl⟩, rfl⟩

theorem Upload.Holds.push (h : u.Holds hashChunk db done)
    (hdist : Distinct hashChunk db (done ++ chunk :: rest))
    (hpush : u.push hashChunk chunk = .ok u') : u'.Holds hashChunk db (done ++ [chunk]) := by
  obtain ⟨⟨hash, tx⟩, hput, hpush⟩ := bind_eq_ok.mp hpush
  rw [h.pageSize] at hput
  obtain ⟨rfl, haddr, hstored⟩ := putChunk_spec hashChunk db.pageSize h.addressed
    (fun other hother heq => hdist chunk (by simp) other
      (((h.stored other).mp hother).imp_right (mem_append_left _)) heq) hput
  have hnext : Upload.Holds hashChunk db (done ++ [chunk])
      ⟨u.db, tx, u.chunks ++ [hashChunk chunk], u.len + UInt64.ofNat chunk.length,
        u.pending + 1⟩ := by
    refine ⟨h.pageSize, haddr, fun c => ?_, ?_, ?_, nofun⟩
    · rw [hstored, h.stored, mem_append, mem_singleton, or_assoc]
    · rw [h.chunks, map_append, map_singleton]
    · rw [h.len, flatten_append, length_append, UInt64.ofNat_add, flatten_singleton]
  dsimp only at hpush
  split at hpush
  · exact (hnext.commit hpush).1
  · obtain rfl := Except.ok.inj hpush
    exact hnext

theorem Upload.Holds.pushAll (h : u.Holds hashChunk db done)
    (hdist : Distinct hashChunk db (done ++ rest))
    (hall : u.pushAll hashChunk rest = .ok u') : u'.Holds hashChunk db (done ++ rest) := by
  induction rest generalizing u done with
  | nil =>
      obtain rfl := Except.ok.inj hall
      rwa [append_nil]
  | cons chunk rest ih =>
      rw [Upload.pushAll] at hall
      split at hall
      · nomatch hall
      · next u₁ hpush =>
        have happ : done ++ chunk :: rest = done ++ [chunk] ++ rest := by simp
        rw [happ] at hdist ⊢
        exact ih (h.push (happ ▸ hdist) hpush) hdist hall

/-- No put and no commit of the upload fails. -/
structure Upload.Unfailing (u : Upload) : Prop where
  puts : ∀ i, u.tx.fails i = none
  commits : ∀ i, u.db.commits i = none

theorem Upload.Unfailing.commit (h : u.Unfailing) :
    ∃ u', u.commit = .ok u' ∧ u'.Unfailing ∧ u'.db.pageSize = u.db.pageSize := by
  rw [Upload.commit, h.commits 0]
  exact ⟨_, rfl, ⟨h.puts, fun i => h.commits (i + 1)⟩, rfl⟩

theorem Upload.Unfailing.pushAll (h : u.Unfailing)
    (hroom : ∀ chunk ∈ rest, Room u.db.pageSize (hashChunk chunk)) :
    ∃ u', u.pushAll hashChunk rest = .ok u' ∧ u'.Unfailing := by
  induction rest generalizing u with
  | nil => exact ⟨u, rfl, h⟩
  | cons chunk rest ih =>
      obtain ⟨⟨hash, tx⟩, hput, hfails⟩ := putChunk_returns hashChunk u.db.pageSize
        (hroom chunk (.head _)) h.puts
      have hnext : Upload.Unfailing ⟨u.db, tx, u.chunks ++ [hash],
        u.len + UInt64.ofNat chunk.length, u.pending + 1⟩ := ⟨hfails, h.commits⟩
      obtain ⟨u₁, hpush, h₁, hps⟩ : ∃ u₁, u.push hashChunk chunk = .ok u₁ ∧ u₁.Unfailing
          ∧ u₁.db.pageSize = u.db.pageSize := by
        rw [Upload.push, hput, ok_bind]
        dsimp only
        split
        · exact hnext.commit
        · exact ⟨_, rfl, hnext, rfl⟩
      rw [Upload.pushAll, hpush]
      exact ih h₁ fun c hc => hps ▸ hroom c (.tail _ hc)

/-! ## Reading back -/

theorem readChunks_stored {l : List Bytes}
    (hl : ∀ chunk ∈ l, Stored hashChunk db.pageSize db.catalog chunk) :
    ∀ (out : Bytes) (written : UInt64),
      readChunks db (l.map hashChunk) (out, written)
        = .ok (out ++ l.flatten, written + UInt64.ofNat l.flatten.length) := by
  induction l with
  | nil =>
      intro out written
      rw [map_nil, readChunks, flatten_nil, append_nil, length_nil]
      simp
  | cons chunk l ih =>
      intro out written
      have hget : catalogGet db.pageSize db.catalog (chunkKey (hashChunk chunk)) = some chunk :=
        hl chunk (.head _)
      rw [map_cons, readChunks, hget]
      simp only []
      rw [ih fun c hc => hl c (.tail _ hc), flatten_cons, append_assoc,
        length_append, UInt64.ofNat_add, UInt64.add_assoc]

variable {data : Bytes}

/-- The descriptor of stored cuts reads back as the bytes. -/
theorem readBlob_stored
    (hl : ∀ chunk ∈ cuts data, Stored hashChunk db.pageSize db.catalog chunk) :
    readBlob db ⟨UInt64.ofNat data.length, (cuts data).map hashChunk⟩
      = .ok (data, UInt64.ofNat data.length) := by
  rw [readBlob, readChunks_stored hl, flatten_cuts, nil_append, UInt64.zero_add]
  exact if_neg fun hne => hne rfl

/-- Whatever the reads, `write_blob` is decided by the cuts of the bytes. -/
theorem writeBlob_steady (hashChunk : Bytes → ChunkHash) (db : Db) (data : Bytes)
    (sizes : Nat → Nat) : writeBlob hashChunk db (steady data sizes) = (do
      let u ← Upload.pushAll hashChunk ⟨db, db.catalog, [], 0, 0⟩ (cuts data)
      let u ← u.settle
      return (⟨u.len, u.chunks⟩, u.db)) := by
  rw [writeBlob, loop_steady]

/-- Once an upload is settled the database holds its chunks. -/
theorem Upload.Holds.settle (h : u.Holds hashChunk db done) (hsettle : u.settle = .ok u') :
    u'.Holds hashChunk db done ∧ u'.db.catalog = u'.tx := by
  rw [Upload.settle] at hsettle
  split at hsettle
  · cases hc : u.commit with
    | error e =>
        rw [hc] at hsettle
        nomatch hsettle
    | ok u₂ =>
        rw [hc] at hsettle
        obtain rfl := Except.ok.inj hsettle
        obtain ⟨h', hpending⟩ := h.commit hc
        exact ⟨h', h'.settled hpending⟩
  · next hnone =>
    obtain rfl := Except.ok.inj hsettle
    exact ⟨h, h.settled (Nat.eq_zero_of_not_pos hnone)⟩

theorem Upload.Unfailing.settle (h : u.Unfailing) : ∃ u', u.settle = .ok u' := by
  rw [Upload.settle]
  split
  · obtain ⟨u', hcommit, -⟩ := h.commit
    rw [hcommit]
    exact ⟨u', rfl⟩
  · exact ⟨u, rfl⟩

end

/-! ## The catalog is a tree -/

section
open QuantyPager QuantyPagerInv QuantyBtree QuantyBtreeSim QuantyBtreeMap QuantyBtreeRun CowHeap

/-- The tree below `root` shows these entries. -/
def Agrees (entries : List (Key × Bytes)) (b : Batch) (root : PageId) : Prop :=
  ∃ o V L, root = rootOf o ∧ 512 ≤ b.pageSize ∧ Sound b L ∧ Holds (view b L) (cellsOf o ++ V)
    ∧ Shows b.pageSize o V fun key => AssocList.get key entries

/-- `put_chunk`, by the calls of the tree. -/
def putChunkTree (hashChunk : Bytes → ChunkHash) (root : PageId) (bytes : Bytes) :
    BatchM (ChunkHash × PageId) := do
  let hash := hashChunk bytes
  match ← liftRead ((batchReader (← get)).get root (chunkKey hash)) with
  | some _ => return (hash, root)
  | none =>
      let root ← QuantyBtree.put root (chunkKey hash) bytes
      let root ← QuantyBtree.put root (refsKey hash) (encodeRefs 0)
      return (hash, root)

/-- A failure, or none, before what else is to come. -/
def first (e : Option Error) (later : Nat → Option Error) : Nat → Option Error
  | 0 => e
  | i + 1 => later i

variable {entries : List (Key × Bytes)} {fails : Nat → Option Error} {b b' : Batch}
  {root root' : PageId} {key : Key} {value : Bytes}

theorem Agrees.get (h : Agrees entries b root) (fails : Nat → Option Error) (key : Key) :
    (batchReader b).get root key = .ok (catalogGet b.pageSize ⟨entries, fails⟩ key) := by
  obtain ⟨o, V, L, rfl, -, hs, hh, hm⟩ := h
  rw [reader_get (Holds.covers hs hh) hm, catalogGet]
  split
  · next hlong => rw [hm.none_of_illegal fun hk => absurd hk.2 (not_le.mpr hlong)]
  · rfl

/-- A put to the tree that returns is one to the catalog that returns. -/
theorem Agrees.put (h : Agrees entries b root) (fails : Nat → Option Error)
    (hsize : value.length ≤ ISIZE_MAX)
    (hput : QuantyBtree.put root key value b = .ok root' b') :
    b'.pageSize = b.pageSize ∧ Agrees (AssocList.put key value entries) b' root'
      ∧ catalogPut b.pageSize ⟨entries, first none fails⟩ key value
        = .ok ⟨AssocList.put key value entries, fails⟩ := by
  obtain ⟨o, V, L, rfl, hps, hs, hh, hm⟩ := h
  obtain ⟨⟨o', V', L', rfl, hw, hm'⟩, -⟩ :=
    call_refined hps hs hh hm (.put key ⟨value, hsize⟩) (bind_ok hput)
  have hkey : 0 < key.length ∧ key.length ≤ maxKeyLen b.pageSize := by
    by_contra hk
    obtain ⟨e, he⟩ := put_error (rootOf o) value hk
    nomatch he.symm.trans hput
  have hsame : b'.pageSize = b.pageSize := hw.stays.pageSize
  refine ⟨hsame, ⟨o', V', L', rfl, hsame ▸ hps, hw.sound, hw.holds, ?_⟩, ?_⟩
  · rw [hsame]
    convert hm' using 1
    funext k
    show _ = Function.update (fun key => AssocList.get key entries) key (some value) k
    rw [AssocList.get_put]
    rcases eq_or_ne k key with rfl | hne
    · rw [if_pos rfl, Function.update_self]
    · rw [if_neg hne, Function.update_of_ne hne]
  · rw [catalogPut, if_neg hkey.1.ne', if_neg (not_lt.mpr hkey.2)]
    rfl

/-- A put to the tree that fails is one to the catalog that fails. -/
theorem catalogPut_error {e : Error} (hput : QuantyBtree.put root key value b = .error e b') :
    catalogPut b.pageSize ⟨entries, first (some e) fails⟩ key value = .error e := by
  rw [catalogPut]
  have hcheck : ∀ e', checkKey b.pageSize key b = .error e' b → e' = e := by
    intro e' he'
    unfold QuantyBtree.put at hput
    rw [get_bind, bind_error he'] at hput
    cases hput
    rfl
  split
  · next h0 =>
    refine congrArg Except.error (hcheck _ ?_)
    rw [checkKey, if_pos h0]
    rfl
  · next h0 =>
    split
    · next hlong =>
      refine congrArg Except.error (hcheck _ ?_)
      rw [checkKey, if_neg h0, if_pos hlong]
      rfl
    · rfl

/-- **THE CATALOG IS A TREE**: whatever `put_chunk` does to the tree it does to
    the catalog, for some run of failing and returning puts. -/
theorem putChunk_tree (hashChunk : Bytes → ChunkHash) {bytes : Bytes} (h : Agrees entries b root)
    (hsize : bytes.length ≤ ISIZE_MAX) (later : Nat → Option Error) :
    ∃ fails, match putChunkTree hashChunk root bytes b with
      | .error e _ => putChunk hashChunk b.pageSize ⟨entries, fails⟩ bytes = .error e
      | .ok (hash, root') b' => ∃ entries', Agrees entries' b' root'
          ∧ putChunk hashChunk b.pageSize ⟨entries, fails⟩ bytes
            = .ok (hash, ⟨entries', later⟩) := by
  have hrefs : (encodeRefs 0).length ≤ ISIZE_MAX := by decide
  have hget := fun fails => h.get fails (chunkKey (hashChunk bytes))
  unfold putChunkTree
  rw [get_bind, hget later]
  cases hfound : catalogGet b.pageSize ⟨entries, later⟩ (chunkKey (hashChunk bytes)) with
  | some old =>
      refine ⟨later, entries, h, ?_⟩
      rw [putChunk, hfound]
  | none =>
      have hnone (fails : Nat → Option Error) :
          catalogGet b.pageSize ⟨entries, fails⟩ (chunkKey (hashChunk bytes)) = none := hfound
      have hread : (liftRead (.ok none) : BatchM (Option Bytes)) b = .ok none b := rfl
      rw [bind_ok hread]
      dsimp only
      cases hput : QuantyBtree.put root (chunkKey (hashChunk bytes)) bytes b with
      | error e b₁ =>
          rw [bind_error hput]
          refine ⟨first (some e) later, ?_⟩
          rw [putChunk, hnone, catalogPut_error hput]
          rfl
      | ok root₁ b₁ =>
          rw [bind_ok hput]
          cases hcount : QuantyBtree.put root₁ (refsKey (hashChunk bytes)) (encodeRefs 0) b₁ with
          | error e b₂ =>
              obtain ⟨hps, -, hchunk⟩ := h.put (first (some e) later) hsize hput
              rw [bind_error hcount]
              refine ⟨first none (first (some e) later), ?_⟩
              rw [putChunk, hnone, hchunk, ok_bind, ← hps, catalogPut_error hcount]
              rfl
          | ok root₂ b₂ =>
              obtain ⟨hps, h₁, hchunk⟩ := h.put (first none later) hsize hput
              obtain ⟨-, h₂, hboth⟩ := h₁.put later hrefs hcount
              rw [bind_ok hcount]
              refine ⟨first none (first none later), _, h₂, ?_⟩
              rw [putChunk, hnone, hchunk, ok_bind, ← hps, hboth]
              rfl

end

/-- **BLOBS ROUND TRIP**: how the reads of the source came does not show in what
    an upload answers or leaves.  One that returns has stored the cuts of the
    bytes and answers the one descriptor that names them; reading that
    descriptor gives the bytes and their number.  It returns where the keys fit
    the page size and no put and no commit fails.  A descriptor is read back
    from its encoding exactly when its count fits its four bytes, and nothing
    else is accepted. -/
theorem blob_round_trip (hashChunk : Bytes → ChunkHash) (db : Db) (data : Bytes)
    (haddr : Addressed hashChunk db.pageSize db.catalog)
    (hdist : Distinct hashChunk db (cuts data)) :
    (∀ sizes sizes', writeBlob hashChunk db (steady data sizes)
        = writeBlob hashChunk db (steady data sizes'))
    ∧ (∀ sizes r db', writeBlob hashChunk db (steady data sizes) = .ok (r, db') →
        r.chunks = (cuts data).map hashChunk
          ∧ (data.length < 2 ^ 64 → r.len.toNat = data.length)
          ∧ readBlob db' r = .ok (data, r.len)
          ∧ Addressed hashChunk db'.pageSize db'.catalog)
    ∧ ((db.pageSize < 1024 → ∀ chunk ∈ cuts data, Room db.pageSize (hashChunk chunk)) →
        (∀ i, db.catalog.fails i = none) → (∀ i, db.commits i = none) →
        ∀ sizes, ∃ r db', writeBlob hashChunk db (steady data sizes) = .ok (r, db'))
    ∧ (∀ r : BlobRef, decode r.encode = .ok r ↔ r.chunks.length < 2 ^ 32)
    ∧ ∀ b : Bytes, (∀ r : BlobRef, r.chunks.length < 2 ^ 32 → r.encode ≠ b) →
        decode b = .error BlobRef.MALFORMED := by
  refine ⟨fun sizes sizes' => ?_, fun sizes r db' hwrite => ?_,
    fun hroom hputs hcommits sizes => ?_,
    fun r => ?_, fun b hb => ?_⟩
  · rw [writeBlob_steady, writeBlob_steady]
  · rw [writeBlob_steady] at hwrite
    obtain ⟨u, hall, hwrite⟩ := bind_eq_ok.mp hwrite
    obtain ⟨u', hsettle, hwrite⟩ := bind_eq_ok.mp hwrite
    obtain ⟨rfl, rfl⟩ := Prod.mk.inj (Except.ok.inj hwrite)
    have hstart : (⟨db, db.catalog, [], 0, 0⟩ : Upload).Holds hashChunk db [] :=
      ⟨rfl, haddr, fun c => by simp, rfl, rfl, fun _ => rfl⟩
    obtain ⟨h, hcatalog⟩ := (hstart.pushAll hdist hall).settle hsettle
    rw [nil_append] at h
    have hlen : u'.len = UInt64.ofNat data.length := by rw [h.len, flatten_cuts]
    rw [h.chunks, hlen, hcatalog, h.pageSize]
    refine ⟨rfl, UInt64.toNat_ofNat_of_lt, readBlob_stored fun chunk hc => ?_, h.addressed⟩
    rw [hcatalog, h.pageSize]
    exact (h.stored chunk).mpr (.inr hc)
  · have hfits : ∀ chunk ∈ cuts data, Room db.pageSize (hashChunk chunk) := by
      intro chunk hchunk
      by_cases hps : db.pageSize < 1024
      · exact hroom hps chunk hchunk
      · exact room_of_pageSize (by omega) _
    have hstart : (⟨db, db.catalog, [], 0, 0⟩ : Upload).Unfailing := ⟨hputs, hcommits⟩
    obtain ⟨u, hall, hu⟩ := hstart.pushAll hfits
    obtain ⟨u', hsettle⟩ := hu.settle
    refine ⟨⟨u'.len, u'.chunks⟩, u'.db, ?_⟩
    rw [writeBlob_steady, hall, ok_bind, hsettle]
    rfl
  · rw [decode_encode]
    split
    · next h => exact ⟨fun _ => h, fun _ => rfl⟩
    · next h => exact ⟨fun he => (nomatch he), fun hlt => absurd hlt h⟩
  · rcases decode_cases b with ⟨r, hr, henc, -⟩ | h
    · exact absurd henc (hb r hr)
    · exact h

theorem length_firstBytes (chunk : Bytes) :
    ((chunk ++ List.replicate 32 1).take 32).length = 32 := by
  rw [length_take, length_append, length_replicate]
  omega

/-- A hash for fixed inputs: the first bytes of the chunk. -/
def firstBytes (chunk : Bytes) : ChunkHash :=
  ⟨(chunk ++ List.replicate 32 1).take 32, length_firstBytes chunk⟩

/-- So many whole chunks of one byte, and three bytes more. -/
def sevens (n : Nat) : Bytes := List.replicate (n * CHUNK_SIZE + 3) 7

theorem cuts_sevens (n : Nat) :
    cuts (sevens n) = List.replicate n (List.replicate CHUNK_SIZE 7) ++ [[7, 7, 7]] := by
  have hsize : 3 ≤ CHUNK_SIZE := by decide
  induction n with
  | zero =>
      rw [cuts, if_neg (by decide), sevens, Nat.zero_mul, Nat.zero_add,
        take_of_length_le (by rw [length_replicate]; exact hsize),
        drop_of_length_le (by rw [length_replicate]; exact hsize), cuts, if_pos rfl]
      rfl
  | succ n ih =>
      have hne : sevens (n + 1) ≠ [] := by
        rw [sevens, ne_eq, replicate_eq_nil_iff]
        omega
      have hmul : (n + 1) * CHUNK_SIZE + 3 = n * CHUNK_SIZE + 3 + CHUNK_SIZE := by ring
      rw [cuts, if_neg hne, sevens, take_replicate, drop_replicate, hmul,
        Nat.min_eq_left (by omega),
        Nat.add_sub_cancel, ← sevens, ih, replicate_succ, cons_append]

/-- A database of 512 byte pages in which nothing fails. -/
def emptyDb : Db := ⟨512, .empty, fun _ => none⟩

theorem catalogGet_empty (pageSize : Nat) (key : Key) : catalogGet pageSize .empty key = none :=
  ite_self _

theorem firstBytes_whole :
    firstBytes (List.replicate CHUNK_SIZE 7) = firstBytes (List.replicate 32 7) := by
  rw [firstBytes, firstBytes, ChunkHash.mk.injEq,
    take_append_of_le_length (by rw [length_replicate]; decide),
    take_append_of_le_length (by rw [length_replicate]), take_replicate, take_replicate]
  rfl

/-- Nine equal chunks and a tail, with a commit behind the eighth: whatever the
    reads, the upload answers ten hashes, which read back as the bytes. -/
theorem blob_round_trip_ten_chunks :
    ∃ r db', (∀ sizes, writeBlob firstBytes emptyDb (steady (sevens 9) sizes) = .ok (r, db'))
      ∧ r.chunks.length = 10 ∧ readBlob db' r = .ok (sevens 9, r.len) := by
  have hdist : Distinct firstBytes emptyDb (cuts (sevens 9)) := by
    have hne : firstBytes (List.replicate CHUNK_SIZE 7) ≠ firstBytes [7, 7, 7] := by
      rw [firstBytes_whole]
      decide
    intro a ha b hb heq
    rw [cuts_sevens, mem_append, mem_replicate, mem_singleton] at ha hb
    rcases hb with hb | ⟨-, rfl⟩ | rfl
    · nomatch (catalogGet_empty 512 _).symm.trans hb
    · rcases ha with ⟨-, rfl⟩ | rfl
      · rfl
      · exact absurd heq hne
    · rcases ha with ⟨-, rfl⟩ | rfl
      · exact absurd heq.symm hne
      · rfl
  obtain ⟨hsame, hround, hreturns, -⟩ := blob_round_trip firstBytes emptyDb (sevens 9)
    (fun _ _ h => nomatch (catalogGet_empty 512 _).symm.trans h) hdist
  have hroom : ∀ chunk ∈ cuts (sevens 9), Room 512 (firstBytes chunk) := by
    intro chunk hchunk
    rw [cuts_sevens, mem_append, mem_replicate, mem_singleton] at hchunk
    rcases hchunk with ⟨-, rfl⟩ | rfl
    · rw [firstBytes_whole]
      unfold Room
      decide
    · unfold Room
      decide
  obtain ⟨r, db', hwrite⟩ := hreturns (fun _ => hroom) (fun _ => rfl) (fun _ => rfl) id
  obtain ⟨hchunks, -, hread, -⟩ := hround id r db' hwrite
  refine ⟨r, db', fun sizes => (hsame sizes id).trans hwrite, ?_, hread⟩
  rw [hchunks, length_map, cuts_sevens, length_append, length_replicate]
  rfl

/-- A descriptor of `2 ^ 32` chunks does not come back: its count is written as
    zero. -/
theorem descriptor_count_wraps :
    decode (encode ⟨0, List.replicate (2 ^ 32) (firstBytes [])⟩)
      = .error BlobRef.MALFORMED := by
  rw [decode_encode, if_neg (by rw [length_replicate]; omega)]

end QuantyBlob
