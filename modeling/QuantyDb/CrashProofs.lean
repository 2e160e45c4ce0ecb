import QuantyDb.CommitProofs
import QuantyDb.RecoverProofs

/-! # Crash safety of the commit protocol

    `Mirrors crc p d` says that the bytes `d` are what the pager `p` knows
    them to be: every page it has sealed stands at its place, its newest meta
    stands in its slot, and the other slot holds nothing newer.  Writing a
    page, writing a meta and tearing a meta each keep it, for the state that
    they lead to; recovery on mirrored bytes returns the meta of the pager.

    A crash is then one of three such sequences.  Copy-on-write enters once:
    what a commit writes was free before, so nothing that the old meta reaches
    is touched. -/

namespace QuantyCrash

open QuantyKey QuantyPage QuantyPager QuantyPagerInv QuantySavepoint QuantyFreeList List AssocList
open Pager
open QuantyCommit QuantyCodec QuantyStorage QuantyRecover Linked

variable {crc : Bytes → UInt32} {p : Pager} {d : Disk}

/-! ## Bytes and pagers -/

variable {i off : Nat} {buf : Bytes} {m : Meta} {x : PageId} {p' : Pager} {b' : Batch}
  {j n now ps : Nat} {e : PageId × Sealed} {t : Bytes} {acts : List Action}
  {es : List (PageId × Sealed)}

theorem readAt_eq_some {x : Bytes} :
    d.readAt off n = some x ↔ off + n ≤ d.len ∧ d.window off n = x := by
  rw [Disk.readAt]
  split
  · next h => exact ⟨fun heq => ⟨h, Option.some.inj heq⟩, fun heq => congrArg some heq.2⟩
  · next h => exact ⟨(by rintro ⟨⟩), fun heq => absurd heq.1 h⟩

/-- A write leaves alone what it does not overlap. -/
theorem readAt_writeAt_out {o : Nat} {x : Bytes} (h : d.readAt o n = some x)
    (hout : o + n ≤ off ∨ off + buf.length ≤ o) : (d.writeAt off buf).readAt o n = some x := by
  obtain ⟨hlen, hwin⟩ := readAt_eq_some.mp h
  exact readAt_eq_some.mpr
    ⟨hlen.trans Disk.len_writeAt_ge, (Disk.window_writeAt_out hout).trans hwin⟩

theorem attempt_writeAt_out {slot : Nat} (hlong : slot * ps + ps ≤ d.len)
    (hout : slot * ps + ps ≤ off ∨ off + buf.length ≤ slot * ps) :
    attempt crc (d.writeAt off buf) ps slot = attempt crc d ps slot := by
  have hread : d.readAt (slot * ps) ps = some (d.window (slot * ps) ps) :=
    readAt_eq_some.mpr ⟨hlong, rfl⟩
  rw [attempt, attempt, hread, readAt_writeAt_out hread hout]

/-- Every page that the pager has sealed stands at its place, and its slots
    are what the slots decode to. -/
structure Backs (crc : Bytes → UInt32) (p : Pager) (d : Disk) : Prop where
  valid : validPageSize p.pageSize = true
  size : p.committed.pageSize = p.pageSize
  long : 2 * p.pageSize ≤ d.len
  pages : ∀ id s, AssocList.get id p.storage.pages = some s → 2 ≤ id →
    d.readAt (id * p.pageSize) p.pageSize = some (image crc p.pageSize s)
  slots : ∀ i < 2, p.storage.slot i = attempt crc d p.pageSize i

theorem Backs.low (h : Backs crc p d) : 512 ≤ p.pageSize := (le_of_validPageSize h.valid).1

theorem Backs.slot_long (h : Backs crc p d) (hi : i < 2) : i * p.pageSize + p.pageSize ≤ d.len := by
  refine le_trans ?_ h.long
  rw [← Nat.succ_mul]
  exact Nat.mul_le_mul_right _ hi

/-- **STORAGE AS THE PAGER KNOWS IT**. -/
structure Mirrors (crc : Bytes → UInt32) (p : Pager) (d : Disk) : Prop where
  valid : validPageSize p.pageSize = true
  size : p.committed.pageSize = p.pageSize
  framed : Framed p.pageSize d
  long : 2 * p.pageSize ≤ d.len
  pages : ∀ id s, AssocList.get id p.storage.pages = some s → 2 ≤ id →
    d.readAt (id * p.pageSize) p.pageSize = some (image crc p.pageSize s)
  slots : ∀ i < 2, p.storage.slot i = attempt crc d p.pageSize i
  current : p.storage.slot (p.committed.txid % 2) = some p.committed
  other : ∀ m, p.storage.slot ((p.committed.txid + 1) % 2) = some m →
    m.txid < p.committed.txid ∨ m = p.committed

/-- **RECOVERY** of mirrored storage. -/
theorem Mirrors.recover (h : Mirrors crc p d) : recover crc d = .ok p.committed := by
  have hslot : p.committed.txid % 2 < 2 := Nat.mod_lt _ (by decide)
  refine recover_eq h.framed h.valid hslot ((h.slots _ hslot).symm.trans h.current) ?_
  intro m hm
  have hflip : 1 - p.committed.txid % 2 = (p.committed.txid + 1) % 2 := by omega
  rw [hflip, ← h.slots _ (Nat.mod_lt _ (by decide))] at hm
  exact h.other m hm

theorem Mirrors.backs (h : Mirrors crc p d) : Backs crc p d :=
  ⟨h.valid, h.size, h.long, h.pages, h.slots⟩

theorem Mirrors.low (h : Mirrors crc p d) : 512 ≤ p.pageSize := h.backs.low

/-! ### Writing a page -/

/-- Pages that reach storage before the meta does. -/
def withPages (p : Pager) (es : List (PageId × Sealed)) : Pager :=
  { p with storage := p.storage.writePages es }

theorem backs_page (h : Backs crc p d) (hid : 2 ≤ e.1) :
    Backs crc (withPages p [e]) (d.writeAt (e.1 * p.pageSize) (image crc p.pageSize e.2)) := by
  have hlow := h.low
  have hlen : (image crc p.pageSize e.2).length = p.pageSize :=
    length_image (by rw [PAGE_HEADER_LEN]; omega) e.2
  have hfar : 2 * p.pageSize ≤ e.1 * p.pageSize := Nat.mul_le_mul_right _ hid
  refine ⟨h.valid, h.size, h.long.trans Disk.len_writeAt_ge, ?_, ?_⟩
  · intro id s hs h2
    rw [show (withPages p [e]).storage.pages = AssocList.put e.1 e.2 p.storage.pages from rfl,
      get_put] at hs
    show (d.writeAt (e.1 * p.pageSize) (image crc p.pageSize e.2)).readAt (id * p.pageSize)
      p.pageSize = some (image crc p.pageSize s)
    split at hs
    · next heq =>
      cases hs
      have hsame := Disk.readAt_writeAt_same d (e.1 * p.pageSize) (image crc p.pageSize e.2)
      rw [hlen] at hsame
      rw [heq]
      exact hsame
    · next hne =>
      refine readAt_writeAt_out (h.pages id s hs h2) ?_
      rw [hlen]
      exact page_apart hne p.pageSize
  · intro i hi
    have hslot : i * p.pageSize + p.pageSize ≤ 2 * p.pageSize := by
      rw [← Nat.succ_mul]
      exact Nat.mul_le_mul_right _ hi
    show p.storage.slot i = attempt crc _ p.pageSize i
    rw [attempt_writeAt_out (hslot.trans h.long) (.inl (hslot.trans hfar))]
    exact h.slots i hi

/-- The page writes of a commit, one after another. -/
theorem backs_pages (es : List (PageId × Sealed)) (h : Backs crc p d) (hes : ∀ e ∈ es, 2 ≤ e.1) :
    Backs crc (withPages p es)
      (d.writes (es.map (fun e => (e.1 * p.pageSize, image crc p.pageSize e.2)))) := by
  induction es generalizing p d with
  | nil => exact h
  | cons e rest ih =>
      exact ih (backs_page h (hes e (.head _))) fun e' he' =>
        hes e' (.tail _ he')

theorem mirrors_page (h : Mirrors crc p d) (hid : 2 ≤ e.1) (hplain : Plain p.pageSize e.2.page) :
    Mirrors crc (withPages p [e]) (d.writeAt (e.1 * p.pageSize) (image crc p.pageSize e.2)) := by
  have hlow := h.low
  have hlen : (image crc p.pageSize e.2).length = p.pageSize :=
    length_image (by rw [PAGE_HEADER_LEN]; omega) e.2
  have hb := backs_page h.backs hid
  exact ⟨h.valid, h.size, h.framed.writePage hlow hid hlen (image_ne_magic crc h.valid hplain),
    hb.long, hb.pages, hb.slots, h.current, h.other⟩

/-- Any of the pages, in any number. -/
theorem mirrors_pages (es : List (PageId × Sealed)) (h : Mirrors crc p d)
    (hes : ∀ e ∈ es, 2 ≤ e.1 ∧ Plain p.pageSize e.2.page) :
    Mirrors crc (withPages p es)
      (d.writes (es.map (fun e => (e.1 * p.pageSize, image crc p.pageSize e.2)))) := by
  induction es generalizing p d with
  | nil => exact h
  | cons e rest ih =>
      obtain ⟨hid, hplain⟩ := hes e (.head _)
      exact ih (mirrors_page h hid hplain) fun e' he' => hes e' (.tail _ he')

/-! ### Writing a meta -/

/-- The other slot of two. -/
theorem slot_apart (hne : j ≠ i) (hlen : buf.length = ps) :
    j * ps + ps ≤ i * ps ∨ i * ps + buf.length ≤ j * ps := by
  rw [hlen]
  exact page_apart hne ps

/-- A slot write leaves the pages and the other slot alone. -/
theorem backs_slot (h : Backs crc p d) (hi : i < 2) (hlen : buf.length = p.pageSize) {st : Storage}
    (hm : m.pageSize = p.pageSize) (hpages : st.pages = p.storage.pages)
    (hslot : st.slot i = (Meta.decode crc i buf).toOption)
    (hother : ∀ j < 2, j ≠ i → st.slot j = p.storage.slot j) :
    Backs crc { p with storage := st, committed := m } (d.writeAt (i * p.pageSize) buf) := by
  refine ⟨h.valid, hm, h.long.trans Disk.len_writeAt_ge, ?_, ?_⟩
  · intro id s hs h2
    have hs' : AssocList.get id p.storage.pages = some s := hpages ▸ hs
    have hne : id ≠ i := by lia
    exact readAt_writeAt_out (h.pages id s hs' h2) (slot_apart hne hlen)
  · intro j hj
    show st.slot j = attempt crc _ p.pageSize j
    by_cases hne : j = i
    · subst hne
      have hread := Disk.readAt_writeAt_same d (j * p.pageSize) buf
      rw [hlen] at hread
      rw [attempt, hread]
      exact hslot
    · rw [hother j hj hne, attempt_writeAt_out (h.slot_long hj) (slot_apart hne hlen)]
      exact h.slots j hj

/-- Writing a meta into one of the slots. -/
theorem backs_meta (h : Backs crc p d) (hi : i < 2) (hm : Encodable m)
    (hps : m.pageSize = p.pageSize) :
    Backs crc { p with storage := p.storage.writeMeta i m, committed := m }
      (d.writeAt (i * p.pageSize) (Meta.encode crc m)) := by
  have hshape := encode_shaped crc hm.size
  rw [hps] at hshape
  refine backs_slot h hi hshape.length hps (writeMeta_pages _ _ _) ?_ ?_
  · rw [slot_writeMeta _ hi hi, if_pos rfl, decode_encode hm]
    rfl
  · intro j hj hne
    rw [slot_writeMeta _ hi hj, if_neg hne]

theorem mirrors_meta (h : Mirrors crc p d) (hm : Encodable m) (hps : m.pageSize = p.pageSize)
    (htxid : m.txid = p.committed.txid + 1) :
    Mirrors crc { p with storage := p.storage.writeMeta (m.txid % 2) m, committed := m }
      (d.writeAt (m.txid % 2 * p.pageSize) (Meta.encode crc m)) := by
  have hslot : m.txid % 2 < 2 := Nat.mod_lt _ (by decide)
  have hshape := encode_shaped crc hm.size
  rw [hps] at hshape
  have hb := backs_meta h.backs hslot hm hps
  refine ⟨h.valid, hps, h.framed.writeMeta h.low hslot hshape.length fun _ => hshape,
    hb.long, hb.pages, hb.slots, ?_, ?_⟩
  · show (p.storage.writeMeta (m.txid % 2) m).slot (m.txid % 2) = some m
    rw [slot_writeMeta _ hslot hslot, if_pos rfl]
  · intro m' hm'
    have hthat : (p.storage.writeMeta (m.txid % 2) m).slot ((m.txid + 1) % 2) = some m' := hm'
    rw [slot_writeMeta _ hslot (Nat.mod_lt _ (by decide)), if_neg (by omega)] at hthat
    have hold : (m.txid + 1) % 2 = p.committed.txid % 2 := by omega
    rw [hold, h.current] at hthat
    cases hthat
    exact .inl (by lia)

/-! ### Tearing a meta -/

/-- A slot that holds nothing valid. -/
def tornSlot (st : Storage) (i : Nat) : Storage :=
  if i = 0 then { st with slotA := none } else { st with slotB := none }

theorem slot_tornSlot (st : Storage) (hi : i < 2) (hj : j < 2) :
    (tornSlot st i).slot j = if j = i then none else st.slot j := by
  obtain rfl | rfl : i = 0 ∨ i = 1 := by omega
  · obtain rfl | rfl : j = 0 ∨ j = 1 := by omega
    · rfl
    · rfl
  · obtain rfl | rfl : j = 0 ∨ j = 1 := by omega
    · rfl
    · rfl

theorem tornSlot_pages (st : Storage) (i : Nat) : (tornSlot st i).pages = st.pages := by
  rw [tornSlot]
  split <;> rfl

theorem mirrors_torn (h : Mirrors crc p d) (hm : Encodable m) (hps : m.pageSize = p.pageSize)
    (ht : Torn (d.window ((p.committed.txid + 1) % 2 * p.pageSize) p.pageSize)
      (Meta.encode crc m) t) (hcrc : ∀ slot, verify crc slot t ≠ .ok ()) :
    Mirrors crc { p with storage := tornSlot p.storage ((p.committed.txid + 1) % 2) }
      (d.writeAt ((p.committed.txid + 1) % 2 * p.pageSize) t) := by
  have hslot : (p.committed.txid + 1) % 2 < 2 := Nat.mod_lt _ (by decide)
  have hshape := encode_shaped crc hm.size
  rw [hps] at hshape
  have hlen : t.length = p.pageSize := ht.length.trans hshape.length
  have hb := backs_slot h.backs hslot hlen h.size
    (tornSlot_pages p.storage ((p.committed.txid + 1) % 2)) ?_ ?_
  · refine ⟨h.valid, h.size, h.framed.writeMeta h.low hslot hlen ?_, hb.long, hb.pages, hb.slots,
      ?_, ?_⟩
    · intro hzero
      rw [hzero, Nat.zero_mul] at ht
      exact torn_shaped ht (h.framed.shaped h.low) hshape h.low
    · show (tornSlot p.storage ((p.committed.txid + 1) % 2)).slot (p.committed.txid % 2) = _
      rw [slot_tornSlot _ hslot (Nat.mod_lt _ (by decide)), if_neg (by omega)]
      exact h.current
    · intro m' hm'
      rw [slot_tornSlot _ hslot hslot, if_pos rfl] at hm'
      nomatch hm'
  · rw [slot_tornSlot _ hslot hslot, if_pos rfl]
    cases hdec : Meta.decode crc ((p.committed.txid + 1) % 2) t with
    | error e => rfl
    | ok m' => exact absurd (decode_eq_ok hdec).1 (hcrc _)
  · intro j hj hne
    rw [slot_tornSlot _ hslot hj, if_neg hne]

/-! ## What a committed state depends on -/

section Live

variable {R : Type} {rd : Reading R} {L₀ : FreePages}

/-- A page that the meta depends on: reached, or a page of the free list. -/
def Live (rd : Reading R) (p : Pager) (x : PageId) : Prop :=
  (∃ r, Reaches rd p r x)
    ∨ ∃ L, Chain p p.committed.freelistRoot L ∧ x ∈ L.map Prod.fst

/-- A live page is stored, inside the file, and not on the free list. -/
theorem Healthy.live (hh : Healthy rd p L₀) (hx : Live rd p x) :
    2 ≤ x ∧ x < p.committed.pageCount ∧ (pageAt p x).isSome = true
      ∧ x ∉ L₀.flatMap Prod.snd := by
  rcases hx with ⟨r, hr⟩ | ⟨L, hL, hx⟩
  · obtain ⟨h2, hlt, hpage⟩ := hh.inside r x hr
    exact ⟨h2, hlt, hpage, fun hm => hh.apart r x hr (mem_append_left _ hm)⟩
  · obtain rfl := chain_unique hh.chain hL
    obtain ⟨h2, hlt⟩ := hh.range x (mem_append_right _ hx)
    refine ⟨h2, hlt, ?_, ?_⟩
    · have hstored : ∀ {c : PageId} {L : FreePages}, Chain p c L →
          x ∈ L.map Prod.fst → (pageAt p x).isSome = true := by
        intro c L hchain hmem
        induction L generalizing c with
        | nil => nomatch hmem
        | cons e rest ih =>
            obtain ⟨c', ids⟩ := e
            obtain ⟨rfl, -, -, next, hread, hrest⟩ := hchain
            rcases mem_cons.mp hmem with rfl | hmem
            · rw [(pageAt_of_readPage hread).2.2]
              rfl
            · exact ih hrest hmem
      exact hstored hh.chain hx
    · intro hm
      exact (nodup_append.mp hh.nodup).2.2 x hm x hx rfl

/-- What is reached depends on the live pages alone. -/
theorem reaches_congr (hmeta : p'.committed = p.committed)
    (hsame : ∀ x, Live rd p x → pageAt p' x = pageAt p x) (r : R) (x : PageId) :
    Reaches rd p' r x ↔ Reaches rd p r x := by
  rw [Reaches, Reaches, hmeta]
  exact reach_congr fun r x hr => hsame x (.inl ⟨r, hr⟩)

/-- So does health. -/
theorem healthy_congr (hh : Healthy rd p L₀) (hps : p'.pageSize = p.pageSize)
    (hmeta : p'.committed = p.committed) (hsame : ∀ x, Live rd p x → pageAt p' x = pageAt p x) :
    Healthy rd p' L₀ := by
  have hreach := reaches_congr hmeta hsame
  refine ⟨⟨?_, hh.nodup, hmeta.symm ▸ hh.range, hmeta.symm ▸ hh.two⟩, hps.symm ▸ hh.size, ?_, ?_⟩
  · rw [hmeta]
    exact chain_congr hps (le_of_eq (congrArg Meta.pageCount hmeta.symm)) hh.chain
      fun x hx => hsame x (.inr ⟨L₀, hh.chain, hx⟩)
  · intro r x hr
    have hr' := (hreach r x).mp hr
    rw [hsame x (.inl ⟨r, hr'⟩), hmeta]
    exact hh.inside r x hr'
  · exact fun r x hr => hh.apart r x ((hreach r x).mp hr)

/-- So does being live. -/
theorem live_congr (hh : Healthy rd p L₀) (hps : p'.pageSize = p.pageSize)
    (hmeta : p'.committed = p.committed) (hsame : ∀ x, Live rd p x → pageAt p' x = pageAt p x) :
    Live rd p' x ↔ Live rd p x := by
  have hreach := reaches_congr hmeta hsame
  have hchain := (healthy_congr hh hps hmeta hsame).chain
  constructor
  · rintro (⟨r, hr⟩ | ⟨T, hT, hx⟩)
    · exact .inl ⟨r, (hreach r x).mp hr⟩
    · exact .inr ⟨L₀, hh.chain, chain_unique hT hchain ▸ hx⟩
  · rintro (⟨r, hr⟩ | ⟨T, hT, hx⟩)
    · exact .inl ⟨r, (hreach r x).mpr hr⟩
    · exact .inr ⟨L₀, hchain, chain_unique hT hh.chain ▸ hx⟩

/-- Storage that serves a committed state: the bytes are known, and the state
    is healthy. -/
structure Durable (crc : Bytes → UInt32) (rd : Reading R) (p : Pager)
    (L : FreePages) (d : Disk) : Prop where
  mirrors : Mirrors crc p d
  healthy : Healthy rd p L

/-- Every live page has exactly the bytes that were sealed. -/
def Intact (crc : Bytes → UInt32) (rd : Reading R) (p : Pager) (d : Disk) : Prop :=
  ∀ x, Live rd p x → ∃ s, AssocList.get x p.storage.pages = some s
    ∧ d.readAt (x * p.pageSize) p.pageSize = some (image crc p.pageSize s)

theorem stored_of_live (hh : Healthy rd p L₀) (hx : Live rd p x) :
    ∃ s, AssocList.get x p.storage.pages = some s := by
  have hpage := (Healthy.live hh hx).2.2.1
  rw [pageAt, Option.isSome_map] at hpage
  exact Option.isSome_iff_exists.mp hpage

theorem Durable.intact (h : Durable crc rd p L₀ d) : Intact crc rd p d := by
  intro x hx
  obtain ⟨s, hs⟩ := stored_of_live h.healthy hx
  exact ⟨s, hs, h.mirrors.pages x s hs (Healthy.live h.healthy hx).1⟩

/-! ## Commits and crashes -/

/-- A batch as the engine commits it: lawful, of plain pages, prepared to
    `b'`, and small enough that offsets and counters fit their fields. -/
structure Commissioned (rd : Reading R) (p : Pager) (acts : List Action) (now : Nat)
    (b' : Batch) : Prop where
  lawful : Lawful rd (runActions acts p.begin)
  plain : ∀ id page, AssocList.get id (runActions acts p.begin).dirty = some page →
    Plain p.pageSize page
  prepared : (runActions acts p.begin).prepare = .ok b'
  room : b'.nextPage * p.pageSize ≤ 2 ^ 64
  txid : p.committed.txid + 1 < 2 ^ 62
  time : now < 2 ^ 64

theorem prepare_eq_ok {b : Batch} (h : b.prepare = .ok b') : Batch.settleFreelist b = .ok () b'
      ∧ ∀ root ∈ [b'.dataRoot, b'.catalogRoot, b'.freelistRoot, b'.commitPage, b'.refsRoot],
        root = NIL_PAGE ∨ 2 ≤ root ∧ root < b'.nextPage := by
  rw [Batch.prepare] at h
  split at h
  · cases h
  · split at h
    · cases h
    · next hsettle =>
      split at h
      · next hroots =>
        cases h
        refine ⟨hsettle, ?_⟩
        intro root hr
        have := all_eq_true.mp hroots root hr
        simpa [Batch.rootInFile] using this
      · cases h

/-- What is known of a commissioned batch once it is prepared. -/
structure Ordered (rd : Reading R) (p : Pager) (L₀ : FreePages) (b' : Batch)
    (L' : FreePages) (now : Nat) : Prop where
  pager : b'.pager = p
  base : b'.base = p.committed
  healthy : Healthy rd (b'.publish now) L'
  sorted : AssocList.Sorted b'.dirty
  heirs : ∀ x, Live rd (b'.publish now) x → b'.owns x = true ∨ Live rd p x
  fresh : ∀ e ∈ b'.sealedPages, e.1 ∈ L₀.flatMap Prod.snd ∨ p.committed.pageCount ≤ e.1
  plain : ∀ e ∈ b'.sealedPages, 2 ≤ e.1 ∧ Plain p.pageSize e.2.page
  encodable : Encodable (b'.newMeta now)

theorem Commissioned.ordered (hc : Commissioned rd p acts now b') (hh : Healthy rd p L₀) :
    ∃ L', Ordered rd p L₀ b' L' now := by
  have hbal := runActions_balanced acts (balanced_begin hh.toFreeListSound)
  obtain ⟨L, hL⟩ := hbal.now
  obtain ⟨hsettle, hroots⟩ := prepare_eq_ok hc.prepared
  obtain ⟨b'', L', hsettle', hpager, hbase, hout⟩ := settle_outcome hh hbal hc.lawful now
  obtain rfl : b'' = b' := by
    have := hsettle'.symm.trans hsettle
    injection this
  have hp : b''.pager = p := hpager.trans hbal.pager
  have hb : b''.base = p.committed := hbase.trans (hL.committed.trans (by rw [hbal.pager]))
  have hlow := (le_of_validPageSize hh.size).1
  have hsmall : b''.nextPage < 2 ^ 62 := by
    have hmul : b''.nextPage * 512 ≤ b''.nextPage * p.pageSize := Nat.mul_le_mul_left _ hlow
    have hroom := hc.room
    have h64 : (2 : Nat) ^ 64 = 512 * 2 ^ 55 := by decide
    have h62 : (2 : Nat) ^ 55 < 2 ^ 62 := by decide
    lia
  -- a sealed page is a page of the batch, or one of the free list
  have hdirty : ∀ e ∈ b''.sealedPages, ∃ page, e = (e.1, ⟨b''.base.txid + 1, page⟩)
      ∧ AssocList.get e.1 b''.dirty = some page := by
    intro e he
    obtain ⟨⟨id, page⟩, hmem, rfl⟩ := mem_map.mp he
    exact ⟨page, rfl, get_of_mem hout.sorted hmem⟩
  refine ⟨L', hp, hb, hout.healthy, hout.sorted, ?_, ?_, ?_, ?_⟩
  · rintro x (⟨r, hr⟩ | ⟨T, hT, hx⟩)
    · rcases hc.lawful.reaches ((hout.reached r x).mp hr) with hown | hold
      · exact .inl (hout.mono x hown)
      · rw [hbal.pager] at hold
        exact .inr (.inl ⟨r, hold⟩)
    · rw [chain_unique hT hout.healthy.chain] at hx
      rcases hout.chained x hx with hown | hold
      · exact .inl hown
      · exact .inr (.inr ⟨L₀, hh.chain, hold⟩)
  · intro e he
    obtain ⟨page, -, hget⟩ := hdirty e he
    have horigin := hout.origin e.1 (owns_iff.mpr ⟨page, hget⟩)
    rwa [hL.committed, hbal.pager] at horigin
  · intro e he
    obtain ⟨page, heq, hget⟩ := hdirty e he
    rw [heq]
    rcases hout.pages e.1 page hget with hold | ⟨h2, next, ids, rfl, hnext⟩
    · exact ⟨(hL.owned e.1 page hold).1, hc.plain e.1 page hold⟩
    · exact ⟨h2, hnext.trans hsmall⟩
  · refine ⟨?_, ?_, hout.healthy.two, hsmall, hc.time, hroots⟩
    · show validPageSize b''.pager.pageSize = true
      rw [hp]
      exact hh.size
    · show b''.base.txid + 1 < 2 ^ 62
      rw [hb]
      exact hc.txid

section Crash

variable {now : Nat} {b' : Batch} {L' : FreePages} {d' : Disk}

theorem get_writePages_out (hx : ∀ e ∈ es, e.1 ≠ x) (st : Storage) :
    AssocList.get x (st.writePages es).pages = AssocList.get x st.pages := by
  induction es generalizing st with
  | nil => rfl
  | cons e rest ih =>
      show AssocList.get x (Storage.writePages (st.writePage e.1 e.2) rest).pages = _
      rw [ih (fun e' he' => hx e' (.tail _ he')), Storage.writePage,
        get_put, if_neg (Ne.symm (hx e (.head _)))]

/-- **COPY-ON-WRITE**: no page that the old meta depends on is written. -/
theorem Ordered.untouched (ho : Ordered rd p L₀ b' L' now) (hh : Healthy rd p L₀)
    (hx : Live rd p x) :
    ∀ e ∈ b'.sealedPages, e.1 ≠ x := by
  rintro e he rfl
  obtain ⟨-, hlt, -, hout⟩ := Healthy.live hh hx
  rcases ho.fresh e he with hlisted | hle
  · exact hout hlisted
  · lia

/-- The old state, as storage serves it after a crash: some pages of the
    commit have arrived, and nothing that it depends on has changed. -/
structure Survives (crc : Bytes → UInt32) (rd : Reading R) (p : Pager)
    (L₀ : FreePages) (p' : Pager) (d' : Disk) : Prop where
  durable : Durable crc rd p' L₀ d'
  pageSize : p'.pageSize = p.pageSize
  committed : p'.committed = p.committed
  same : ∀ x, Live rd p x → AssocList.get x p'.storage.pages = AssocList.get x p.storage.pages

theorem survives_of_same (hh : Healthy rd p L₀) (hm : Mirrors crc p' d')
    (hps : p'.pageSize = p.pageSize) (hmeta : p'.committed = p.committed)
    (hsame : ∀ x, Live rd p x →
      AssocList.get x p'.storage.pages = AssocList.get x p.storage.pages) :
    Survives crc rd p L₀ p' d' := by
  refine ⟨⟨hm, healthy_congr hh hps hmeta fun x hx => ?_⟩, hps, hmeta, hsame⟩
  rw [pageAt, pageAt, hsame x hx]

/-- Before the first wait is over, any of the pages may have arrived. -/
theorem crash_pages (ho : Ordered rd p L₀ b' L' now) (hd : Durable crc rd p L₀ d)
    (hes : es.Sublist b'.sealedPages) : Survives crc rd p L₀ (withPages p es)
      (d.writes (es.map (fun e => (e.1 * p.pageSize, image crc p.pageSize e.2)))) := by
  refine survives_of_same hd.healthy (mirrors_pages es hd.mirrors fun e he =>
    ho.plain e (hes.subset he)) rfl rfl ?_
  intro x hx
  exact get_writePages_out (fun e he => ho.untouched hd.healthy hx e (hes.subset he)) _

/-- While the meta is written, all the pages have arrived. -/
theorem crash_torn (ho : Ordered rd p L₀ b' L' now) (hd : Durable crc rd p L₀ d)
    (ht : Torn ((d.writes (pageWrites crc b')).window (metaOffset b') b'.pageSize)
      (metaBytes crc now b') t) (hcrc : ∀ slot, verify crc slot t ≠ .ok ()) :
    ∃ p', Survives crc rd p L₀ p'
      ((d.writes (pageWrites crc b')).writeAt (metaOffset b') t) := by
  obtain rfl := ho.pager
  have hall := crash_pages ho hd (List.Sublist.refl _)
  have hoff : metaOffset b' = (b'.pager.committed.txid + 1) % 2 * b'.pager.pageSize := by
    rw [metaOffset, ho.base]
    rfl
  rw [hoff] at ht ⊢
  have htorn := mirrors_torn hall.durable.mirrors ho.encodable rfl ht hcrc
  refine ⟨_, survives_of_same hd.healthy htorn rfl rfl ?_⟩
  intro x hx
  rw [tornSlot_pages]
  exact hall.same x hx

/-- When the meta has arrived, the commit is through. -/
theorem crash_complete (ho : Ordered rd p L₀ b' L' now) (hd : Durable crc rd p L₀ d) :
    Durable crc rd (b'.publish now) L' (commitDisk crc now b' d) := by
  refine ⟨?_, ho.healthy⟩
  obtain rfl := ho.pager
  have hall := (crash_pages ho hd (List.Sublist.refl _)).durable.mirrors
  have htxid : (b'.newMeta now).txid = b'.pager.committed.txid + 1 :=
    congrArg (fun m : Meta => m.txid + 1) ho.base
  exact mirrors_meta hall ho.encodable rfl htxid

/-- **A CRASH** leaves the old state or the new one. -/
theorem crash_outcome (ho : Ordered rd p L₀ b' L' now) (hd : Durable crc rd p L₀ d)
    (hcrash : Crash crc now b' d d') :
    (∃ p', Survives crc rd p L₀ p' d') ∨ Durable crc rd (b'.publish now) L' d' := by
  cases hcrash with
  | pages ws h =>
      obtain ⟨es, hes, rfl⟩ := sublist_map_iff.mp h
      obtain rfl := ho.pager
      exact .inl ⟨_, crash_pages ho hd hes⟩
  | torn t ht hcrc => exact .inl (crash_torn ho hd ht hcrc)
  | complete => exact .inr (crash_complete ho hd)

theorem Survives.intact (h : Survives crc rd p L₀ p' d') (hh : Healthy rd p L₀) :
    Intact crc rd p d' := by
  intro x hx
  obtain ⟨s, hs⟩ := stored_of_live hh hx
  refine ⟨s, hs, ?_⟩
  have hread := h.durable.mirrors.pages x s ((h.same x hx).trans hs) (Healthy.live hh hx).1
  rw [h.pageSize] at hread
  exact hread

end Crash

/-- **A RUN OF COMMITS**, each on the state that the one before left. -/
inductive Commits (crc : Bytes → UInt32) (rd : Reading R) (p₀ : Pager) (d₀ : Disk) :
    Pager → Disk → Prop where
  | start : Commits crc rd p₀ d₀ p₀ d₀
  | commit {p : Pager} {d : Disk} {acts : List Action} {now : Nat} {b' : Batch}
      (h : Commits crc rd p₀ d₀ p d) (hc : Commissioned rd p acts now b') :
      Commits crc rd p₀ d₀ (b'.publish now) (commitDisk crc now b' d)

/-- Storage serves the state after every commit of a run. -/
theorem Commits.durable {p₀ : Pager} {d₀ : Disk} (h₀ : Durable crc rd p₀ L₀ d₀)
    (h : Commits crc rd p₀ d₀ p d) : ∃ L, Durable crc rd p L d := by
  induction h with
  | start => exact ⟨L₀, h₀⟩
  | commit _ hc ih =>
      obtain ⟨L, hL⟩ := ih
      obtain ⟨L', ho⟩ := hc.ordered hL.healthy
      exact ⟨L', crash_complete ho hL⟩

/-- **CRASH SAFETY**: after any run of commits from a durable state, and for a
    crash at any point of the next commit, recovery returns the meta of the
    last commit or of the one in flight, and every page that it depends on has
    the bytes that were sealed. -/
theorem recover_after_crash {p₀ : Pager} {d₀ d' : Disk} {acts : List Action} {now : Nat}
    {b' : Batch} (h₀ : Durable crc rd p₀ L₀ d₀) (hrun : Commits crc rd p₀ d₀ p d)
    (hc : Commissioned rd p acts now b') (hcrash : Crash crc now b' d d') :
    (recover crc d' = .ok p.committed ∧ Intact crc rd p d')
      ∨ (recover crc d' = .ok (b'.newMeta now) ∧ Intact crc rd (b'.publish now) d') := by
  obtain ⟨L, hL⟩ := hrun.durable h₀
  obtain ⟨L', ho⟩ := hc.ordered hL.healthy
  rcases crash_outcome ho hL hcrash with ⟨p', hp'⟩ | hnew
  · left
    refine ⟨?_, hp'.intact hL.healthy⟩
    rw [hp'.durable.mirrors.recover, hp'.committed]
  · right
    exact ⟨hnew.mirrors.recover, hnew.intact⟩

end Live

/-! ## A new file -/

/-- Empty storage with the same bytes written to both slots. -/
def bothSlots (ps : Nat) (buf : Bytes) : Disk :=
  ((⟨0, fun _ => 0⟩ : Disk).writeAt 0 buf).writeAt ps buf

/-- Storage after `Pager::create`: the initial meta in both slots. -/
def createDisk (crc : Bytes → UInt32) (ps now : Nat) : Disk :=
  bothSlots ps (Meta.encode crc (initial ps now).committed)

section Create

variable {ps now : Nat} {buf : Bytes}

theorem initial_encodable (hps : validPageSize ps = true) (hnow : now < 2 ^ 64) :
    Encodable (initial ps now).committed := by
  have hcount : 2 < 2 ^ 62 := by decide
  refine ⟨hps, Nat.two_pow_pos 62, le_rfl, hcount, hnow, ?_⟩
  intro root hr
  left
  simpa [initial] using hr

/-- Behind the first slot there is nothing yet, so it frames the file. -/
theorem framed_first (h : Shaped ps buf) (hlow : 512 ≤ ps) :
    Framed ps ((⟨0, fun _ => 0⟩ : Disk).writeAt 0 buf) := by
  have hwin := Disk.window_writeAt_same ⟨0, fun _ => 0⟩ 0 buf
  rw [h.length] at hwin
  refine ⟨?_, ?_, ?_⟩
  · rw [← Nat.zero_add 28, ← Disk.slice_window (n := ps) (by omega), hwin]
    exact h.size
  · intro i h1 h2
    have hget := Disk.get_writeAt_in ⟨0, fun _ => 0⟩ 0
      (show i < buf.length by rw [h.length]; exact h2)
    rw [Nat.zero_add] at hget
    rw [hget, getD_eq_getElem?_getD, h.clear i h1 h2]
    rfl
  · intro k hk
    have hfar : 2 * ps ≤ k * ps := Nat.mul_le_mul_right ps hk
    refine window_ne_magic (if_neg ?_)
    show ¬ k * ps + 16 < max 0 (0 + buf.length)
    rw [h.length]
    omega

theorem framed_bothSlots (h : Shaped ps buf) (hlow : 512 ≤ ps) : Framed ps (bothSlots ps buf) := by
  have hone := (framed_first h hlow).writeMeta hlow Nat.one_lt_two h.length fun _ => h
  rwa [Nat.one_mul] at hone

theorem readAt_bothSlots (hlen : buf.length = ps) (hi : i < 2) :
    (bothSlots ps buf).readAt (i * ps) ps = some buf := by
  obtain rfl | rfl : i = 0 ∨ i = 1 := by omega
  · have hzero := Disk.readAt_writeAt_same ⟨0, fun _ => 0⟩ 0 buf
    rw [hlen] at hzero
    rw [Nat.zero_mul]
    exact readAt_writeAt_out hzero (.inl (by omega))
  · have hone := Disk.readAt_writeAt_same ((⟨0, fun _ => 0⟩ : Disk).writeAt 0 buf) ps buf
    rw [hlen] at hone
    rw [Nat.one_mul]
    exact hone

/-- A new file is mirrored by the pager that made it. -/
theorem mirrors_create (crc : Bytes → UInt32) (hps : validPageSize ps = true)
    (hnow : now < 2 ^ 64) : Mirrors crc (initial ps now) (createDisk crc ps now) := by
  have hlow := (le_of_validPageSize hps).1
  have hm := initial_encodable hps hnow
  have hshape : Shaped ps (Meta.encode crc (initial ps now).committed) :=
    encode_shaped crc hm.size
  have hlong : 2 * ps ≤ (createDisk crc ps now).len := by
    show 2 * ps ≤ max _ (ps + List.length _)
    rw [hshape.length]
    omega
  refine ⟨hps, rfl, framed_bothSlots hshape hlow, hlong, nofun, ?_, rfl, ?_⟩
  · intro i hi
    have hslot : attempt crc (createDisk crc ps now) ps i
        = some (initial ps now).committed := by
      rw [attempt, createDisk, readAt_bothSlots hshape.length hi]
      simp only [decode_encode hm, Except.toOption]
    rw [show (initial ps now).pageSize = ps from rfl, hslot]
    obtain rfl | rfl : i = 0 ∨ i = 1 := by omega
    · rfl
    · rfl
  · intro m hm'
    exact .inr (Option.some.inj hm').symm

theorem durable_create (crc : Bytes → UInt32) (hps : validPageSize ps = true)
    (hnow : now < 2 ^ 64) :
    Durable crc everything (initial ps now) [] (createDisk crc ps now) := by
  have hnone : ∀ r x, ¬ Reaches everything (initial ps now) r x := by
    intro r x hr
    induction hr with
    | root h => nomatch h
    | link _ _ _ ih => exact ih
  exact ⟨mirrors_create crc hps hnow, freeListSound_initial ps now, hps,
    fun r x hr => absurd hr (hnone r x), fun r x hr => absurd hr (hnone r x)⟩

end Create

/-- A leaf on a new page becomes the data tree. -/
def leafActions (id : PageId) : List Action :=
  [.allocate .leaf, .pageMut id (fun _ => .node (.leaf [([1], .inline [])])), .setDataRoot id]

/-- The batch that a commit of the actions writes. -/
def preparedBatch (p : Pager) (acts : List Action) : Batch :=
  match (runActions acts p.begin).prepare with
  | .ok b => b
  | .error _ => p.begin

/-- The state after the first commit to a new file. -/
def onceCommitted : Pager := (preparedBatch (initial 512 0) (leafActions 2)).publish 0

/-- A batch whose one page is a leaf and its data tree. -/
theorem leaf_commissioned {id : PageId} {key : Key}
    (hdirty : (runActions acts p.begin).dirty = [(id, .node (.leaf [(key, .inline [])]))])
    (hroots : everything.roots (runActions acts p.begin).dataRoot
        (runActions acts p.begin).catalogRoot (runActions acts p.begin).refsRoot
        (runActions acts p.begin).commitPage = [(.tree, id)])
    (hover : (runActions acts p.begin).freelistOverride = none)
    (hprep : (runActions acts p.begin).prepare = .ok b') (hroom : b'.nextPage * p.pageSize ≤ 2 ^ 64)
    (htxid : p.committed.txid + 1 < 2 ^ 62) (hnow : now < 2 ^ 64)
    (hkey : key.length ≤ maxKeyLen p.pageSize) : Commissioned everything p acts now b' := by
  refine ⟨⟨?_, ?_, ?_⟩, ?_, hprep, hroom, htxid, hnow⟩
  · intro r x hroot
    rw [hroots] at hroot
    cases mem_singleton.mp hroot
    left
    rw [Batch.owns, hdirty]
    simp [AssocList.get]
  · intro r x page _ hpage r' y hy
    rw [hdirty] at hpage
    cases mem_singleton.mp (mem_of_get hpage)
    cases r <;> cases hy
  · intro ids hids
    cases hover.symm.trans hids
  · intro x page hpage
    rw [hdirty] at hpage
    cases mem_singleton.mp (mem_of_get hpage)
    intro e he
    cases mem_singleton.mp he
    exact hkey

theorem first_commissioned :
    Commissioned everything (initial 512 0) (leafActions 2) 0
      (preparedBatch (initial 512 0) (leafActions 2)) :=
  leaf_commissioned rfl rfl rfl rfl (by decide) (by decide) (by decide) (by decide)

theorem second_commissioned :
    Commissioned everything onceCommitted (leafActions 3) 0
      (preparedBatch onceCommitted (leafActions 3)) :=
  leaf_commissioned rfl rfl rfl rfl (by decide) (by decide) (by decide) (by decide)

/-- A new file, one commit, and a crash in the second one when its pages have
    arrived and its meta has not. -/
theorem recover_after_crash_twice :
    let crc : Bytes → UInt32 := fun _ => 0
    let d := commitDisk crc 0 (preparedBatch (initial 512 0) (leafActions 2))
      (createDisk crc 512 0)
    let b' := preparedBatch onceCommitted (leafActions 3)
    let d' := d.writes (pageWrites crc b')
    (recover crc d' = .ok onceCommitted.committed ∧ Intact crc everything onceCommitted d')
      ∨ (recover crc d' = .ok (b'.newMeta 0) ∧ Intact crc everything (b'.publish 0) d') :=
  recover_after_crash (durable_create _ (by decide) (by decide))
    (Commits.commit Commits.start first_commissioned) second_commissioned
    (Crash.pages _ (List.Sublist.refl _))

/-! ## A file and its crashes -/

section Life

variable {R : Type} {rd : Reading R} {L₀ : FreePages} {p₀ : Pager} {d₀ : Disk}

/-- **THE LIFE OF A FILE**: commits, each of which returns or crashes at any
    point, and the newest id that was answered.  The next one works on what an
    open then finds: storage as it stands, with all that the recovered state
    depends on, be it the old or the new. -/
inductive Life (crc : Bytes → UInt32) (rd : Reading R) (p₀ : Pager) (d₀ : Disk) :
    Pager → Disk → Nat → Prop where
  | start : Life crc rd p₀ d₀ p₀ d₀ 0
  | commit {p p' : Pager} {d d' : Disk} {t t' now : Nat} {acts : List Action} {b' : Batch}
      (h : Life crc rd p₀ d₀ p d t) (hc : Commissioned rd p acts now b')
      (hcrash : Crash crc now b' d d') (hopen : Mirrors crc p' d')
      (hpages : ∀ q, q = p ∨ q = b'.publish now → q.committed = p'.committed → ∀ x, Live rd q x →
        AssocList.get x p'.storage.pages = AssocList.get x q.storage.pages)
      (hack : t' = t ∨ t' = (b'.newMeta now).txid ∧ d' = commitDisk crc now b' d) :
      Life crc rd p₀ d₀ p' d' t'

/-- Whichever state a crash leaves, it is healthy and no older. -/
theorem crash_no_older {b' : Batch} {L' : FreePages} {now : Nat} {d' : Disk}
    (ho : Ordered rd p L₀ b' L' now) (hd : Durable crc rd p L₀ d) (hcrash : Crash crc now b' d d') :
    ∃ q, (q = p ∨ q = b'.publish now) ∧ ∃ M, Healthy rd q M ∧ q.committed.pageSize = q.pageSize ∧
      recover crc d' = .ok q.committed ∧ p.committed.txid ≤ q.committed.txid := by
  rcases crash_outcome ho hd hcrash with ⟨old, hold⟩ | hnew
  · refine ⟨p, .inl rfl, L₀, hd.healthy, hd.mirrors.size, ?_, le_rfl⟩
    rw [hold.durable.mirrors.recover, hold.committed]
  · refine ⟨_, .inr rfl, L', hnew.healthy, hnew.mirrors.size, hnew.mirrors.recover, ?_⟩
    obtain rfl := ho.pager
    exact ho.base ▸ Nat.le_succ _

theorem Life.durable (h₀ : Durable crc rd p₀ L₀ d₀) {t : Nat} (h : Life crc rd p₀ d₀ p d t) :
    (∃ L, Durable crc rd p L d) ∧ t ≤ p.committed.txid := by
  induction h with
  | start => exact ⟨⟨L₀, h₀⟩, Nat.zero_le _⟩
  | @commit p p' d d' t t' now acts b' _ hc hcrash hopen hpages hack ih =>
      obtain ⟨⟨L, hL⟩, ht⟩ := ih
      obtain ⟨L', ho⟩ := hc.ordered hL.healthy
      obtain ⟨q, hq, M, hM, hsize, hrec, hle⟩ := crash_no_older ho hL hcrash
      have hmeta : p'.committed = q.committed := Except.ok.inj (hopen.recover.symm.trans hrec)
      refine ⟨⟨M, hopen, healthy_congr hM ?_ hmeta fun x hx => ?_⟩, ?_⟩
      · rw [← hopen.size, hmeta, hsize]
      · rw [pageAt, pageAt, hpages q hq hmeta.symm x hx]
      · rcases hack with rfl | ⟨rfl, rfl⟩
        · exact hmeta ▸ ht.trans hle
        · have hdone := (crash_complete ho hL).mirrors.recover
          exact Except.ok.inj (hdone.symm.trans hopen.recover) ▸ le_rfl

/-- **WHAT WAS ANSWERED IS NEVER LOST**, through any number of crashes: storage
    recovers to a state that no commit that returned is newer than, with every
    page that it depends on as it was sealed. -/
theorem acknowledged_commits_survive (h₀ : Durable crc rd p₀ L₀ d₀) {t : Nat}
    (h : Life crc rd p₀ d₀ p d t) :
    recover crc d = .ok p.committed ∧ Intact crc rd p d ∧ t ≤ p.committed.txid := by
  obtain ⟨⟨L, hL⟩, ht⟩ := h.durable h₀
  exact ⟨hL.mirrors.recover, hL.intact, ht⟩

end Life

/-- A new file, a commit that returns, and one that crashes when its pages have
    arrived and its meta has not. -/
theorem acknowledged_commits_survive_second :
    let crc : Bytes → UInt32 := fun _ => 0
    let d := commitDisk crc 0 (preparedBatch (initial 512 0) (leafActions 2)) (createDisk crc 512 0)
    let b' := preparedBatch onceCommitted (leafActions 3)
    recover crc (d.writes (pageWrites crc b')) = .ok onceCommitted.committed := by
  intro crc d b'
  have h₀ : Durable crc everything (initial 512 0) [] (createDisk crc 512 0) :=
    durable_create _ (by decide) (by decide)
  obtain ⟨L, ho⟩ := first_commissioned.ordered h₀.healthy
  have h₁ := crash_complete ho h₀
  obtain ⟨L', ho'⟩ := second_commissioned.ordered h₁.healthy
  have h₂ := crash_pages ho' h₁ (Sublist.refl _)
  refine (acknowledged_commits_survive h₀ (.commit (.commit .start first_commissioned .complete
    h₁.mirrors ?_ (.inr ⟨rfl, rfl⟩)) second_commissioned (.pages _ (Sublist.refl _))
    h₂.durable.mirrors ?_ (.inl rfl))).1
  · rintro q (rfl | rfl) hq
    · cases hq
    · exact fun _ _ => rfl
  · rintro q (rfl | rfl) hq
    · exact h₂.same
    · cases hq

end QuantyCrash
