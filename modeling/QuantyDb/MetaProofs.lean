import QuantyDb.RecoverProofs

/-! # Which meta pages are accepted

    FORMAT.md says when a meta page is valid: the checksum verifies, magic and
    version match, the page size is legal and that of the slot, the page count
    is at least two, and every root that is not nil points into the file.

    `Meta::decode` checks all of it except the range of the refs root, so it
    accepts exactly the pages that keep the rules for the other four roots
    (`decode_iff`).  What it returns is what stands in the page. -/

namespace QuantyMeta

open QuantyKey QuantyPage QuantyPager QuantyCodec QuantyStorage QuantyRecover LittleEndian List Meta

/-! ## The rules -/

/-- A root is nil or a page of the file. -/
def Inside (pageCount : Nat) (root : PageId) : Prop :=
  root = NIL_PAGE ∨ 2 ≤ root ∧ root < pageCount

instance (pageCount : Nat) (root : PageId) : Decidable (Inside pageCount root) :=
  inferInstanceAs (Decidable (_ ∨ _))

/-- Where a meta has its data, catalog, free list and commit pointers. -/
def CHECKED_ROOTS : List Nat := [40, 48, 56, 80]

/-- Where it has its refs root. -/
def REFS_ROOT : Nat := 88

/-- The rules of the format for a meta page, the last one for the pointers at
    the given offsets. -/
structure Rules (crc : Bytes → UInt32) (roots : List Nat) (buf : Bytes) : Prop where
  checksum : ofLe (slice 0 4 buf) = (crc (buf.drop 4)).toNat
  magic : slice 16 8 buf = MAGIC
  version : getU32 buf 24 = FORMAT_VERSION
  legal : validPageSize (getU32 buf 28) = true
  here : getU32 buf 28 = buf.length
  two : 2 ≤ getU64 buf 64
  inside : ∀ off ∈ roots, Inside (getU64 buf 64) (getU64 buf off)

/-- **VALID** as FORMAT.md has it: the rules, with every root. -/
def Valid (crc : Bytes → UInt32) (buf : Bytes) : Prop :=
  Rules crc (CHECKED_ROOTS ++ [REFS_ROOT]) buf

variable {crc : Bytes → UInt32} {slot : PageId} {buf : Bytes} {m : Meta}

/-- The full rules are those that are checked and the one that is not. -/
theorem valid_iff : Valid crc buf ↔
    Rules crc CHECKED_ROOTS buf ∧ Inside (getU64 buf 64) (getU64 buf REFS_ROOT) := by
  constructor
  · intro h
    refine ⟨⟨h.checksum, h.magic, h.version, h.legal, h.here, h.two, ?_⟩, ?_⟩
    · intro off hoff
      exact h.inside off (mem_append_left _ hoff)
    · exact h.inside REFS_ROOT (by simp)
  · rintro ⟨h, hrefs⟩
    refine ⟨h.checksum, h.magic, h.version, h.legal, h.here, h.two, ?_⟩
    intro off hoff
    rcases mem_append.mp hoff with hoff | hoff
    · exact h.inside off hoff
    · rw [mem_singleton.mp hoff]
      exact hrefs

/-! ## What decoding checks -/

theorem outOfRange_eq_false {pageCount : Nat} {root : PageId} :
    outOfRange pageCount root = false ↔ Inside pageCount root := by
  simp only [outOfRange, Inside, ne_eq, Bool.and_eq_false_iff, Bool.or_eq_false_iff,
    decide_eq_false_iff_not, not_not, not_lt, not_le]

theorem verify_eq_ok : verify crc slot buf = .ok () ↔
    ofLe (slice 0 4 buf) = (crc (buf.drop 4)).toNat := by
  rw [verify]
  split
  · next h => simp [h]
  · next h => simp [not_not.mp h]

/-- The range checks pass exactly when the four roots are inside. -/
theorem checkRanges_eq_ok {m' : Meta} : checkRanges slot m = .ok m' ↔
    m = m' ∧ 2 ≤ m.pageCount ∧
      ∀ root ∈ [m.dataRoot, m.catalogRoot, m.freelistRoot, m.commitPage],
        Inside m.pageCount root := by
  have hfind : [m.dataRoot, m.catalogRoot, m.freelistRoot, m.commitPage].find?
      (outOfRange m.pageCount) = none ↔
      ∀ root ∈ [m.dataRoot, m.catalogRoot, m.freelistRoot, m.commitPage],
        Inside m.pageCount root := by
    simp only [find?_eq_none, Bool.not_eq_true, outOfRange_eq_false]
  rw [checkRanges, ← hfind]
  split
  · next hlt => simp [not_le.mpr hlt]
  · next hge =>
    split
    · next hsome => simp [hsome]
    · next hnone => simp [hnone, not_lt.mp hge]

/-- **WHAT IS ACCEPTED**: decoding returns the fields as they stand, for the
    pages that keep every rule but that of the refs root. -/
theorem decode_iff : decode crc slot buf = .ok m ↔
    m = read buf ∧ Rules crc CHECKED_ROOTS buf := by
  constructor
  · intro h
    simp only [decode] at h
    split at h
    · cases h
    next hverify =>
    split_ifs at h with hmagic hversion hlegal hhere
    obtain ⟨rfl, htwo, hroots⟩ := checkRanges_eq_ok.mp h
    refine ⟨rfl, verify_eq_ok.mp hverify, not_not.mp hmagic, not_not.mp hversion, ?_,
      not_not.mp hhere, htwo, ?_⟩
    · simpa using hlegal
    · simpa [CHECKED_ROOTS, Meta.read] using hroots
  · rintro ⟨rfl, h⟩
    have hroots : checkRanges slot (read buf) = .ok (read buf) := by
      refine checkRanges_eq_ok.mpr ⟨rfl, h.two, ?_⟩
      simpa [CHECKED_ROOTS, Meta.read] using h.inside
    have hlegal : validPageSize buf.length = true := h.here ▸ h.legal
    simp [decode, verify_eq_ok.mpr h.checksum, h.magic, h.version, h.here, hlegal, hroots]

/-! ## Accepted and valid -/

/-- A meta as the format has it: its numbers fit their fields, the page size
    is legal, and each root is nil or a page of the file. -/
structure Legal (m : Meta) : Prop where
  sized : Sized m
  two : 2 ≤ m.pageCount
  roots : ∀ root ∈ [m.dataRoot, m.catalogRoot, m.freelistRoot, m.commitPage, m.refsRoot],
    Inside m.pageCount root

theorem Legal.decode_encode (h : Legal m) (crc : Bytes → UInt32) (slot : PageId) :
    decode crc slot (encode crc m) = .ok m := by
  rw [decode_encode_eq h.sized, checkRanges_eq_ok]
  refine ⟨rfl, h.two, ?_⟩
  intro root hroot
  apply h.roots
  simp only [mem_cons, not_mem_nil, or_false] at hroot ⊢
  tauto

/-- **ACCEPTED EXACTLY WHEN VALID**, as far as it goes: a page is accepted
    exactly when it is valid, unless it keeps every other rule and its refs
    root points out of the file; then it is accepted and not valid.  What is
    accepted is returned as it stands, and every legal meta comes back from
    its own page. -/
theorem accepted_iff_valid_iff (crc : Bytes → UInt32) :
    (∀ (slot : PageId) (buf : Bytes),
      ((∃ m, decode crc slot buf = .ok m) ↔ Valid crc buf) ↔
        (Rules crc CHECKED_ROOTS buf → Inside (getU64 buf 64) (getU64 buf REFS_ROOT))) ∧
    (∀ (slot : PageId) (buf : Bytes) (m : Meta),
      decode crc slot buf = .ok m → m = read buf) ∧
    (∀ (slot : PageId) (m : Meta), Legal m →
      decode crc slot (encode crc m) = .ok m) := by
  refine ⟨?_, ?_, ?_⟩
  · intro slot buf
    have haccepted : (∃ m, decode crc slot buf = .ok m) ↔ Rules crc CHECKED_ROOTS buf := by
      simp only [decode_iff, exists_eq_left]
    rw [haccepted, valid_iff]
    tauto
  · intro slot buf m hdecode
    exact (decode_iff.mp hdecode).1
  · intro slot m hm
    exact hm.decode_encode crc slot

/-- A meta of an empty file whose refs root is page nine. -/
def strayRefs : Meta where
  pageSize := 512
  txid := 1
  dataRoot := NIL_PAGE
  catalogRoot := NIL_PAGE
  freelistRoot := NIL_PAGE
  pageCount := 2
  unixTsMs := 0
  commitPage := NIL_PAGE
  refsRoot := 9

theorem strayRefs_sized : Sized strayRefs := by
  refine ⟨by decide, by decide, by decide, by decide, ?_⟩
  decide

/-- **A STRAY REFS ROOT** is accepted under every checksum, in either slot. -/
theorem stray_refs_root_accepted :
    ¬ Inside strayRefs.pageCount strayRefs.refsRoot ∧
      ∀ (crc : Bytes → UInt32) (slot : PageId),
        decode crc slot (encode crc strayRefs) = .ok strayRefs ∧
          ¬ Valid crc (encode crc strayRefs) := by
  have hout : ¬ Inside strayRefs.pageCount strayRefs.refsRoot := by decide
  refine ⟨hout, ?_⟩
  intro crc slot
  refine ⟨?_, ?_⟩
  · rw [decode_encode_eq strayRefs_sized, checkRanges_eq_ok]
    exact ⟨rfl, by decide, by decide⟩
  · intro hvalid
    have hread := read_encode crc strayRefs_sized
    have hcount : getU64 (encode crc strayRefs) 64 = strayRefs.pageCount :=
      congrArg pageCount hread
    have hrefs : getU64 (encode crc strayRefs) REFS_ROOT = strayRefs.refsRoot :=
      congrArg refsRoot hread
    have hinside := (valid_iff.mp hvalid).2
    rw [hcount, hrefs] at hinside
    exact hout hinside

/-- The meta of a fresh file comes back. -/
theorem accepted_iff_valid_iff_fresh :
    let fresh : Meta := { strayRefs with refsRoot := NIL_PAGE }
    decode (fun _ => 0) 1 (encode (fun _ => 0) fresh) = .ok fresh :=
  (accepted_iff_valid_iff (fun _ => 0)).2.2 1 _
    ⟨⟨by decide, by decide, by decide, by decide, by decide⟩, by decide, by decide⟩

end QuantyMeta
