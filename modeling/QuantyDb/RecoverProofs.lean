import QuantyDb.StorageModel

/-! # Recovery finds the two slots and nothing else

    Recovery tries page sizes that are not the file's.  Three facts about the
    bytes keep it from being fooled (`Framed`): slot 0 carries the page size
    at the same place whatever size it is read at, page 0 is zero behind the
    meta, and no page has the magic where a meta has it.  With them, what
    recovery returns depends on the two slots alone (`recover_eq`). -/

namespace QuantyRecover

open QuantyKey QuantyPage QuantyPager QuantyCodec QuantyStorage LittleEndian List Meta Disk Page

/-! ## Metas -/

/-- A meta whose numbers fit their fields and whose roots lie in the file. -/
structure Encodable (m : Meta) : Prop where
  size : validPageSize m.pageSize = true
  txid : m.txid < 2 ^ 62
  two : 2 ≤ m.pageCount
  count : m.pageCount < 2 ^ 62
  time : m.unixTsMs < 2 ^ 64
  roots : ∀ root ∈ [m.dataRoot, m.catalogRoot, m.freelistRoot, m.commitPage, m.refsRoot],
    root = NIL_PAGE ∨ 2 ≤ root ∧ root < m.pageCount

/-- A meta with a legal page size whose numbers fit their fields. -/
structure Sized (m : Meta) : Prop where
  size : validPageSize m.pageSize = true
  txid : m.txid < 2 ^ 64
  count : m.pageCount < 2 ^ 64
  time : m.unixTsMs < 2 ^ 64
  roots : ∀ root ∈ [m.dataRoot, m.catalogRoot, m.freelistRoot, m.commitPage, m.refsRoot],
    root < 2 ^ 64

variable {m : Meta} {k n ps slot w : Nat} {l : Bytes}

theorem Encodable.sized (h : Encodable m) : Sized m := by
  have hlt : (2 : Nat) ^ 62 < 2 ^ 64 := by decide
  refine ⟨h.size, h.txid.trans hlt, h.count.trans hlt, h.time, ?_⟩
  intro root hr
  rcases h.roots root hr with rfl | ⟨-, hroot⟩
  · decide
  · exact hroot.trans (h.count.trans hlt)

section Checksum

variable {crc : Bytes → UInt32} {m : Meta}

theorem pad_of_le (h : l.length ≤ n) : pad n l = l ++ List.replicate (n - l.length) 0 := by
  rw [pad, take_of_length_le h]

theorem length_metaBody (m : Meta) : (MAGIC ++ layout (fields m)).length = 80 := by
  simp [length_layout, fields, MAGIC]

/-- What stands in an encoded meta behind the header. -/
theorem slice_encode (h : validPageSize m.pageSize = true) (off w : Nat) :
    slice (16 + off) w (encode crc m)
      = slice off w (MAGIC ++ (layout (fields m)
          ++ List.replicate (m.pageSize - PAGE_HEADER_LEN - 80) 0)) := by
  have hsize := (le_of_validPageSize h).1
  have hfits : (MAGIC ++ layout (fields m)).length ≤ m.pageSize - PAGE_HEADER_LEN := by
    rw [length_metaBody, PAGE_HEADER_LEN]
    omega
  rw [encode, slice_body, pad_of_le hfits, length_metaBody, append_assoc]

theorem encode_magic (h : validPageSize m.pageSize = true) :
    slice 16 8 (encode crc m) = MAGIC := by
  rw [show (16 : Nat) = 16 + 0 from rfl, slice_encode h]
  have happend : ∀ C : Bytes, slice 0 8 ([] ++ (MAGIC ++ C)) = MAGIC := fun C =>
    slice_append rfl rfl
  exact happend _

theorem encode_field (crc : Bytes → UInt32) (h : validPageSize m.pageSize = true) {i : Nat}
    (hi : (fields m)[i]? = some (w, n)) :
    slice (24 + offset (fields m) i) w (encode crc m) = le w n := by
  rw [show 24 + offset (fields m) i = 16 + (MAGIC.length + offset (fields m) i) by
    rw [← Nat.add_assoc]; rfl, slice_encode h]
  exact slice_layout hi _ _

/-- Where the fields stand does not depend on what they hold. -/
theorem offset_fields (m : Meta) (i : Nat) :
    offset (fields m) i = ([4, 4, 8, 8, 8, 8, 8, 8, 8, 8].take i).sum := by
  rw [offset, map_take]
  rfl

/-- The fields read back. -/
theorem read_encode (crc : Bytes → UInt32) (h : Sized m) : read (encode crc m) = m := by
  have hs := h.size
  have h64 : (2 : Nat) ^ 64 = 256 ^ 8 := by decide
  have hsize : m.pageSize < 256 ^ 4 := lt_of_le_of_lt (le_of_validPageSize hs).2 (by decide)
  have hroot : ∀ root ∈ [m.dataRoot, m.catalogRoot, m.freelistRoot, m.commitPage, m.refsRoot],
      root < 256 ^ 8 := fun root hr => h64 ▸ h.roots root hr
  have field : ∀ (i off : Nat) {n : Nat}, (fields m)[i]? = some (8, n) →
      24 + ([4, 4, 8, 8, 8, 8, 8, 8, 8, 8].take i).sum = off → n < 256 ^ 8 →
      getU64 (encode crc m) off = n := by
    intro i off n hi hoff hn
    rw [← offset_fields m] at hoff
    rw [getU64, ← hoff, encode_field crc hs hi, ofLe_le hn]
  have hps : getU32 (encode crc m) 28 = m.pageSize := by
    have := encode_field crc hs (i := 1) (w := 4) (n := m.pageSize) rfl
    rw [getU32]
    exact (congrArg ofLe this).trans (ofLe_le hsize)
  have htxid : getU64 (encode crc m) 32 = m.txid :=
    field 2 32 rfl rfl (h64 ▸ h.txid)
  have hdata : getU64 (encode crc m) 40 = m.dataRoot := field 3 40 rfl rfl (hroot _ (by simp))
  have hcatalog : getU64 (encode crc m) 48 = m.catalogRoot :=
    field 4 48 rfl rfl (hroot _ (by simp))
  have hfree : getU64 (encode crc m) 56 = m.freelistRoot :=
    field 5 56 rfl rfl (hroot _ (by simp))
  have hcount : getU64 (encode crc m) 64 = m.pageCount :=
    field 6 64 rfl rfl (h64 ▸ h.count)
  have htime : getU64 (encode crc m) 72 = m.unixTsMs := field 7 72 rfl rfl (h64 ▸ h.time)
  have hcommit : getU64 (encode crc m) 80 = m.commitPage :=
    field 8 80 rfl rfl (hroot _ (by simp))
  have hrefs : getU64 (encode crc m) 88 = m.refsRoot := field 9 88 rfl rfl (hroot _ (by simp))
  rw [Meta.read, hps, htxid, hdata, hcatalog, hfree, hcount, htime, hcommit, hrefs]

theorem checkRanges_ok (h : Encodable m) (slot : PageId) : checkRanges slot m = .ok m := by
  have hnone : [m.dataRoot, m.catalogRoot, m.freelistRoot, m.commitPage].find?
      (outOfRange m.pageCount) = none := by
    rw [find?_eq_none]
    intro root hr hout
    have hr' : root ∈ [m.dataRoot, m.catalogRoot, m.freelistRoot, m.commitPage, m.refsRoot] := by
      simp only [mem_cons, not_mem_nil, or_false] at hr ⊢
      tauto
    simp only [outOfRange, Bool.and_eq_true, Bool.or_eq_true, decide_eq_true_eq] at hout
    rcases h.roots root hr' with hnil | hin
    · exact hout.1 hnil
    · lia
  rw [checkRanges, if_neg (not_lt.mpr h.two), hnone]

/-- Decoding an encoded meta is left with the range checks. -/
theorem decode_encode_eq (h : Sized m) (slot : PageId) :
    decode crc slot (encode crc m) = checkRanges slot m := by
  have hs := h.size
  have hsize := le_of_validPageSize hs
  have hread := read_encode crc h
  have hps : getU32 (encode crc m) 28 = m.pageSize := congrArg pageSize hread
  have hversion : getU32 (encode crc m) 24 = FORMAT_VERSION := by
    have := encode_field crc hs (i := 0) (w := 4) (n := FORMAT_VERSION) rfl
    rw [getU32]
    exact (congrArg ofLe this).trans (ofLe_le (by decide))
  have hverify : verify crc slot (encode crc m) = .ok () := verify_sealBytes slot _
  have hlen : (encode crc m).length = m.pageSize :=
    length_encode (by rw [PAGE_HEADER_LEN]; omega)
  simp only [decode, hverify, encode_magic hs, hversion, hps, hs, hlen, hread, ne_eq,
    not_true_eq_false, if_false, Bool.not_true, Bool.false_eq_true]

/-- **ROUND TRIP** of a meta. -/
theorem decode_encode (h : Encodable m) (slot : PageId) :
    decode crc slot (encode crc m) = .ok m := by
  rw [decode_encode_eq h.sized, checkRanges_ok h slot]

/-- What a buffer that decodes must have. -/
theorem decode_eq_ok {slot : PageId} {buf : Bytes} (h : decode crc slot buf = .ok m) :
    verify crc slot buf = .ok () ∧ slice 16 8 buf = MAGIC ∧ getU32 buf 28 = buf.length := by
  rw [decode] at h
  split at h
  · nomatch h
  · next hverify =>
    split at h
    · nomatch h
    · next hmagic =>
      split at h
      · nomatch h
      · split at h
        · nomatch h
        · split at h
          · nomatch h
          · next hlen => exact ⟨hverify, not_not.mp hmagic, not_not.mp hlen⟩

end Checksum

/-! ## The search -/

/-- The valid meta in a slot, read at a page size. -/
def attempt (crc : Bytes → UInt32) (d : Disk) (ps slot : Nat) : Option Meta :=
  match d.readAt (slot * ps) ps with
  | none => none
  | some buf => (decode crc slot buf).toOption

/-- Keep what was found, or take what is newer. -/
def improve (best : Option Meta) : Option Meta → Option Meta
  | none => best
  | some m => if best.all (fun b => decide (b.txid < m.txid)) then some m else best

section Search

variable {crc : Bytes → UInt32} {d : Disk}

theorem probe_best (s : Search) (ps slot : Nat) :
    (probe crc d s ps slot).best = improve s.best (attempt crc d ps slot) := by
  rw [probe, attempt]
  cases d.readAt (slot * ps) ps with
  | none => rfl
  | some buf =>
      cases hdec : decode crc slot buf with
      | error e => simp only [hdec, Except.toOption, improve]
      | ok m =>
          simp only [hdec, Except.toOption, improve]
          split <;> rfl

theorem foldl_probe_best (cs : List (Nat × Nat)) (s : Search) :
    (cs.foldl (fun s c => probe crc d s c.1 c.2) s).best
      = cs.foldl (fun best c => improve best (attempt crc d c.1 c.2)) s.best := by
  induction cs generalizing s with
  | nil => rfl
  | cons c rest ih => rw [foldl_cons, ih, probe_best, foldl_cons]

/-- Places that hold no meta leave the search where it was. -/
theorem foldl_improve_skip {cs : List (Nat × Nat)} (h : ∀ c ∈ cs, attempt crc d c.1 c.2 = none)
    (best : Option Meta) :
    cs.foldl (fun best c => improve best (attempt crc d c.1 c.2)) best = best := by
  induction cs generalizing best with
  | nil => rfl
  | cons c rest ih =>
      rw [foldl_cons, h c (.head _)]
      exact ih (fun c' hc' => h c' (.tail _ hc')) best

theorem mem_pageSizes (h : validPageSize ps = true) : ∃ k < 8, ps = MIN_PAGE_SIZE * 2 ^ k := by
  obtain ⟨hlow, hhigh⟩ := le_of_validPageSize h
  simp only [validPageSize, Bool.and_eq_true, decide_eq_true_eq] at h
  have hpow := h.2
  clear h
  obtain ⟨k, rfl⟩ := (Nat.and_sub_one_eq_zero_iff_isPowerOfTwo (by omega)).mp hpow
  have hk1 : 9 ≤ k := by
    by_contra hk
    have := Nat.pow_le_pow_right (show 0 < 2 by decide) (show k ≤ 8 by omega)
    omega
  have hk2 : k ≤ 16 := by
    by_contra hk
    have := Nat.pow_le_pow_right (show 0 < 2 by decide) (show 17 ≤ k by omega)
    omega
  refine ⟨k - 9, by omega, ?_⟩
  rw [show MIN_PAGE_SIZE = 2 ^ 9 from rfl, ← Nat.pow_add]
  congr 1
  omega

/-- When no other page size leads anywhere, only the two slots count. -/
theorem search_best (hps : validPageSize ps = true)
    (hother : ∀ k < 8, MIN_PAGE_SIZE * 2 ^ k ≠ ps → ∀ slot < 2,
      attempt crc d (MIN_PAGE_SIZE * 2 ^ k) slot = none) : (search crc d).best
      = improve (improve none (attempt crc d ps 0)) (attempt crc d ps 1) := by
  obtain ⟨k, hk, hpsk⟩ := mem_pageSizes hps
  have hmem : ps ∈ pageSizes := mem_map.mpr ⟨k, mem_range.mpr hk, hpsk.symm⟩
  obtain ⟨A, B, hsplit⟩ := append_of_mem hmem
  have hnodup : pageSizes.Nodup := by decide
  rw [hsplit] at hnodup
  obtain ⟨-, hB, hAB⟩ := nodup_append.mp hnodup
  have hskip : ∀ sizes : List Nat, (∀ x ∈ sizes, x ∈ pageSizes) → ps ∉ sizes →
      ∀ c ∈ sizes.flatMap (fun ps => [(ps, 0), (ps, 1)]), attempt crc d c.1 c.2 = none := by
    intro sizes hsub hout c hc
    obtain ⟨x, hx, hcx⟩ := mem_flatMap.mp hc
    obtain ⟨j, hj, hjx⟩ := mem_map.mp (hsub x hx)
    have hne : MIN_PAGE_SIZE * 2 ^ j ≠ ps := fun heq => hout (by rw [← heq, hjx]; exact hx)
    have hfst : c.1 = x ∧ c.2 < 2 := by
      simp only [mem_cons, not_mem_nil, or_false] at hcx
      rcases hcx with rfl | rfl
      · exact ⟨rfl, Nat.zero_lt_two⟩
      · exact ⟨rfl, Nat.one_lt_two⟩
    rw [hfst.1, ← hjx]
    exact hother j (mem_range.mp hj) hne c.2 hfst.2
  have hA := hskip A (fun x hx => hsplit ▸ mem_append_left _ hx)
    (fun hx => hAB ps hx ps (.head _) rfl)
  have hB' := hskip B (fun x hx => hsplit ▸ mem_append_right _ (.tail _ hx))
    (nodup_cons.mp hB).1
  rw [search, foldl_probe_best, candidates, hsplit, flatMap_append, flatMap_cons,
    foldl_append, foldl_append, foldl_improve_skip hA, foldl_improve_skip hB']
  rfl

end Search

/-! ## Bytes that do not fool the search -/

/-- **FRAMED STORAGE** for a page size. -/
structure Framed (ps : Nat) (d : Disk) : Prop where
  size : d.window 28 4 = le 4 ps
  clear : ∀ i, 96 ≤ i → i < ps → d.get i = 0
  plain : ∀ k, 2 ≤ k → d.window (k * ps + 16) 8 ≠ MAGIC

section Framed

variable {crc : Bytes → UInt32} {d : Disk} {ps : Nat}

theorem attempt_eq_none {ps' : Nat}
    (h : ∀ m, decode crc slot (d.window (slot * ps') ps') ≠ .ok m) :
    attempt crc d ps' slot = none := by
  rw [attempt]
  split
  · rfl
  · next buf hread =>
    rw [readAt] at hread
    split at hread
    · cases hread
      cases hdec : decode crc slot (d.window (slot * ps') ps') with
      | error e => rfl
      | ok m => exact absurd hdec (h m)
    · cases hread

theorem window_ne_magic {off : Nat} (h : d.get off = 0) : d.window off 8 ≠ MAGIC := by
  intro heq
  have hfirst := congrArg List.head? heq
  rw [window] at hfirst
  simp only [range_succ_eq_map, map_cons, head?_cons, Nat.add_zero, h] at hfirst
  exact absurd hfirst (by decide)

/-- **NO OTHER PAGE SIZE** finds a meta. -/
theorem Framed.attempt_other (hf : Framed ps d) (hps : validPageSize ps = true)
    (hne : MIN_PAGE_SIZE * 2 ^ k ≠ ps) (hslot : slot < 2) :
    attempt crc d (MIN_PAGE_SIZE * 2 ^ k) slot = none := by
  obtain ⟨j, hj, hpsj⟩ := mem_pageSizes hps
  have hpos : 1 ≤ 2 ^ k := Nat.one_le_two_pow
  have hmin : 512 ≤ MIN_PAGE_SIZE * 2 ^ k := by simp only [MIN_PAGE_SIZE]; omega
  refine attempt_eq_none fun m hdec => ?_
  obtain ⟨-, hmagic, hsize⟩ := decode_eq_ok hdec
  obtain rfl | rfl : slot = 0 ∨ slot = 1 := by omega
  · -- slot 0 names the page size of the file
    rw [getU32, Nat.zero_mul, slice_window (by omega), Nat.zero_add, hf.size,
      length_window, ofLe_le] at hsize
    · exact hne hsize.symm
    · exact lt_of_le_of_lt (le_of_validPageSize hps).2 (by decide)
  · rw [Nat.one_mul, slice_window (by omega)] at hmagic
    rcases Nat.lt_or_gt_of_ne (fun heq : k = j => hne (heq ▸ hpsj.symm)) with hlt | hgt
    · -- a smaller size reads the zeros behind the meta in page 0
      have hdouble : MIN_PAGE_SIZE * 2 ^ k + 512 ≤ ps := by
        have h2 : 2 ^ (k + 1) ≤ 2 ^ j := Nat.pow_le_pow_right (by decide) hlt
        rw [Nat.pow_succ] at h2
        simp only [hpsj, MIN_PAGE_SIZE]
        omega
      exact window_ne_magic (hf.clear _ (by omega) (by omega)) hmagic
    · -- a larger size reads a page of the file
      have hpage : MIN_PAGE_SIZE * 2 ^ k = 2 ^ (k - j) * ps := by
        rw [hpsj, Nat.mul_left_comm, ← Nat.pow_add]
        congr 2
        omega
      have hk2 : 2 ≤ 2 ^ (k - j) := by
        have := Nat.pow_le_pow_right (show 0 < 2 by decide) (show 1 ≤ k - j by omega)
        omega
      rw [hpage] at hmagic
      exact hf.plain _ hk2 hmagic

/-- **RECOVERY** returns the meta of a slot when the other slot holds nothing
    newer. -/
theorem recover_eq (hf : Framed ps d) (hps : validPageSize ps = true) {c : Meta} (hslot : slot < 2)
    (hthis : attempt crc d ps slot = some c)
    (hthat : ∀ m, attempt crc d ps (1 - slot) = some m → m.txid < c.txid ∨ m = c) :
    recover crc d = .ok c := by
  have hbest : (search crc d).best = some c := by
    rw [search_best hps fun k _ hne s hs => hf.attempt_other hps hne hs]
    obtain rfl | rfl : slot = 0 ∨ slot = 1 := by omega
    · rw [hthis]
      cases hother : attempt crc d ps 1 with
      | none => rfl
      | some m =>
          rcases hthat m hother with hlt | rfl
          · simp [improve, not_lt.mpr (le_of_lt hlt)]
          · simp [improve]
    · rw [hthis]
      cases hother : attempt crc d ps 0 with
      | none => rfl
      | some m =>
          rcases hthat m hother with hlt | rfl
          · simp [improve, hlt]
          · simp [improve]
  rw [recover, hbest]

end Framed

/-! ## Writes keep the frame -/

/-- A slot as every meta leaves it: the page size in its place, and zeros
    behind the fields. -/
structure Shaped (ps : Nat) (buf : Bytes) : Prop where
  length : buf.length = ps
  size : slice 28 4 buf = le 4 ps
  clear : ∀ i, 96 ≤ i → i < ps → buf[i]? = some 0

section Shape

variable {ps : Nat}

theorem encode_shaped (crc : Bytes → UInt32) (h : validPageSize m.pageSize = true) :
    Shaped m.pageSize (encode crc m) := by
  have hsize := (le_of_validPageSize h).1
  have hlen : (encode crc m).length = m.pageSize :=
    length_encode (by rw [PAGE_HEADER_LEN]; omega)
  have hfield : (fields m)[1]? = some (4, m.pageSize) := rfl
  refine ⟨hlen, encode_field crc h hfield, ?_⟩
  intro i h1 h2
  have hone : ∀ l : Bytes, (slice (16 + (i - 16)) 1 l)[0]? = l[i]? := by
    intro l
    rw [getElem?_slice l Nat.zero_lt_one]
    congr 1
    omega
  rw [← hone, slice_encode h, getElem?_slice _ Nat.zero_lt_one, ← append_assoc,
    getElem?_append_right (by rw [length_metaBody]; omega), length_metaBody,
    getElem?_replicate, if_pos]
  simp only [PAGE_HEADER_LEN]
  omega

theorem Framed.shaped {d : Disk} (hf : Framed ps d) (hps : 512 ≤ ps) :
    Shaped ps (d.window 0 ps) := by
  refine ⟨length_window d 0 ps, ?_, ?_⟩
  · rw [slice_window (by omega), Nat.zero_add]
    exact hf.size
  · intro i h1 h2
    rw [window, getElem?_map, getElem?_range h2]
    show some (d.get (0 + i)) = some 0
    rw [Nat.zero_add, hf.clear i h1 h2]

/-- Old and new agree where the shape is fixed, so a mixture has it too. -/
theorem torn_shaped {old new t : Bytes} (h : Torn old new t) (ho : Shaped ps old)
    (hn : Shaped ps new) (hps : 512 ≤ ps) : Shaped ps t := by
  refine ⟨h.length.trans hn.length, ?_, ?_⟩
  · rw [← hn.size]
    apply ext_getElem?
    intro i
    by_cases hi : i < 4
    · have hsame : (slice 28 4 old)[i]? = (slice 28 4 new)[i]? := by rw [ho.size, hn.size]
      rw [getElem?_slice _ hi, getElem?_slice _ hi] at hsame ⊢
      rcases h.byte (28 + i) with heq | heq
      · exact heq
      · exact heq.trans hsame
    · have hlen : ∀ l : Bytes, l.length = ps → (slice 28 4 l)[i]? = none := by
        intro l hl
        refine getElem?_eq_none ?_
        rw [length_slice (by omega)]
        omega
      rw [hlen t (h.length.trans hn.length), hlen new hn.length]
  · intro i h1 h2
    rcases h.byte i with heq | heq
    · exact heq.trans (hn.clear i h1 h2)
    · exact heq.trans (ho.clear i h1 h2)

end Shape

section Writes

variable {ps : Nat} {d : Disk} {buf : Bytes}

/-- Pages are apart. -/
theorem page_apart {id : Nat} (hne : k ≠ id) (ps : Nat) :
    k * ps + ps ≤ id * ps ∨ id * ps + ps ≤ k * ps := by
  rcases Nat.lt_or_gt_of_ne hne with hlt | hgt
  · left
    rw [← Nat.succ_mul]
    exact Nat.mul_le_mul_right ps hlt
  · right
    rw [← Nat.succ_mul]
    exact Nat.mul_le_mul_right ps hgt

theorem Framed.writePage (hf : Framed ps d) (hps : 512 ≤ ps) {id : Nat} (hid : 2 ≤ id)
    (hlen : buf.length = ps) (hplain : slice 16 8 buf ≠ MAGIC) :
    Framed ps (d.writeAt (id * ps) buf) := by
  have hfar : 2 * ps ≤ id * ps := Nat.mul_le_mul_right ps hid
  refine ⟨?_, ?_, ?_⟩
  · rw [window_writeAt_out (by omega)]
    exact hf.size
  · intro i h1 h2
    rw [get_writeAt_out (by omega)]
    exact hf.clear i h1 h2
  · intro k hk
    by_cases hkid : k = id
    · subst hkid
      have hwin := window_writeAt_same d (k * ps) buf
      rw [hlen] at hwin
      rw [← slice_window (o := 16) (w := 8) (n := ps) (by omega), hwin]
      exact hplain
    · have := page_apart hkid ps
      rw [window_writeAt_out (by omega)]
      exact hf.plain k hk

theorem Framed.writeMeta (hf : Framed ps d) (hps : 512 ≤ ps) (hslot : slot < 2)
    (hlen : buf.length = ps) (hshape : slot = 0 → Shaped ps buf) :
    Framed ps (d.writeAt (slot * ps) buf) := by
  obtain rfl | rfl : slot = 0 ∨ slot = 1 := by omega
  · have hs := hshape rfl
    rw [Nat.zero_mul]
    refine ⟨?_, ?_, ?_⟩
    · have hwin := window_writeAt_same d 0 buf
      rw [hlen] at hwin
      rw [← Nat.zero_add 28, ← slice_window (n := ps) (by omega), hwin]
      exact hs.size
    · intro i h1 h2
      have hget := get_writeAt_in d 0 (show i < buf.length by omega)
      rw [Nat.zero_add] at hget
      rw [hget, getD_eq_getElem?_getD, hs.clear i h1 h2]
      rfl
    · intro k hk
      have : 2 * ps ≤ k * ps := Nat.mul_le_mul_right ps hk
      rw [window_writeAt_out (by omega)]
      exact hf.plain k hk
  · rw [Nat.one_mul]
    refine ⟨?_, ?_, ?_⟩
    · rw [window_writeAt_out (by omega)]
      exact hf.size
    · intro i h1 h2
      rw [get_writeAt_out (by omega)]
      exact hf.clear i h1 h2
    · intro k hk
      have : 2 * ps ≤ k * ps := Nat.mul_le_mul_right ps hk
      rw [window_writeAt_out (by omega)]
      exact hf.plain k hk

end Writes

/-! ## No page looks like a meta -/

/-- A page whose first field is no larger than the engine makes it: keys are
    as short as the tree accepts, and page ids and commit ids are below
    `2 ^ 62`, which bytes can be addressed up to. -/
def Plain (ps : Nat) : Page → Prop
  | .node (.leaf es) => ∀ e ∈ es, e.1.length ≤ maxKeyLen ps
  | .node (.branch f _) => f < 2 ^ 62
  | .overflow next _ => next < 2 ^ 62
  | .freeList next _ => next < 2 ^ 62
  | .commit info => info.commitId < 2 ^ 62

section Plain

variable {ps : Nat}

/-- The magic, as a number, is larger. -/
theorem le_ne_magic (h : n < 2 ^ 62) (rest : Bytes) : slice 0 8 (le 8 n ++ rest) ≠ MAGIC := by
  intro heq
  have hle : le 8 n = MAGIC := by
    rw [← heq, slice, drop_zero, take_left' (length_le 8 n)]
  have hval := congrArg ofLe hle
  rw [ofLe_le (lt_trans h (by decide))] at hval
  have hmagic : ofLe MAGIC = 4775039723544597841 := by decide
  omega

theorem slice_pad (h : w ≤ n) : slice 0 w (pad n l) = slice 0 w (l ++ List.replicate n 0) := by
  rw [slice, slice, drop_zero, drop_zero, pad]
  apply ext_getElem?
  intro i
  by_cases hi : i < w
  · rw [getElem?_take_of_lt hi, getElem?_take_of_lt hi, getElem?_append,
      getElem?_append]
    by_cases hl : i < l.length
    · rw [if_pos hl, if_pos (by rw [length_take]; omega), getElem?_take_of_lt (by omega)]
    · rw [if_neg hl, if_neg (by rw [length_take]; omega), getElem?_replicate,
        getElem?_replicate, length_take]
      rw [if_pos (by omega), if_pos (by omega)]
  · rw [getElem?_eq_none (by rw [length_take]; omega),
      getElem?_eq_none (by rw [length_take]; omega)]

/-- **NO PLAIN PAGE** has the magic where a meta has it. -/
theorem image_ne_magic (crc : Bytes → UInt32) (hps : validPageSize ps = true) {s : Sealed}
    (hplain : Plain ps s.page) : slice 16 8 (image crc ps s) ≠ MAGIC := by
  obtain ⟨hlow, hhigh⟩ := le_of_validPageSize hps
  have hbody : slice 16 8 (image crc ps s)
      = slice 0 8 (body s.page ++ List.replicate (ps - PAGE_HEADER_LEN) 0) := by
    rw [show (16 : Nat) = 16 + 0 from rfl, image, slice_body, slice_pad]
    rw [PAGE_HEADER_LEN]
    omega
  rw [hbody]
  obtain ⟨lsn, page⟩ := s
  cases page with
  | node n =>
      cases n with
      | branch f es =>
          rw [body, append_assoc]
          exact le_ne_magic hplain _
      | leaf es =>
          cases es with
          | nil =>
              intro heq
              have hfirst := congrArg List.head? heq
              obtain ⟨k, hk⟩ : ∃ k, ps - PAGE_HEADER_LEN = k + 1 :=
                ⟨ps - PAGE_HEADER_LEN - 1, by rw [PAGE_HEADER_LEN]; omega⟩
              rw [hk] at hfirst
              exact absurd hfirst (by simp [body, slice, replicate_succ, MAGIC])
          | cons e rest =>
              -- the length of the first key comes first
              intro heq
              have hkey : e.1.length ≤ maxKeyLen ps := hplain e (.head _)
              have hcell : ∃ tail, body (.node (.leaf (e :: rest)))
                  = le 2 e.1.length ++ tail := by
                rw [body, flatMap_cons]
                cases e.2 with
                | inline v => exact ⟨_, by rw [leafCell, keyCell]; simp only [append_assoc]; rfl⟩
                | overflow head len =>
                    exact ⟨_, by rw [leafCell, keyCell]; simp only [append_assoc]; rfl⟩
              obtain ⟨tail, htail⟩ := hcell
              have htwo := congrArg (List.take 2) heq
              rw [htail, slice, drop_zero, take_take, append_assoc] at htwo
              rw [show min 2 8 = 2 from rfl, take_left' (length_le 2 _)] at htwo
              have hval := congrArg ofLe htwo
              simp only [maxKeyLen] at hkey
              rw [ofLe_le (by omega)] at hval
              have hmagic : ofLe (List.take 2 MAGIC) = 21841 := by decide
              omega
  | overflow next part =>
      rw [body, append_assoc]
      exact le_ne_magic hplain _
  | freeList next ids =>
      rw [body, append_assoc]
      exact le_ne_magic hplain _
  | commit info =>
      rw [body, layout, flatMap_cons, append_assoc]
      exact le_ne_magic hplain _

end Plain

end QuantyRecover
