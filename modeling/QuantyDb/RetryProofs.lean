import QuantyDb.CrashProofs

/-! # Commits that fail, and the commits after them

    A storage call inside a commit may fail, and a write or a sync that failed
    may have left nothing, a part, or all of what it was asked for.  The handle
    lives on: it keeps its meta and its cache, and the next batch computes the
    same id, the same slot and often the same page ids again.

    Two things make that safe.  What a commit writes was free before, so the
    meta that the handle keeps still finds its pages.  And the slot is read
    before anything is written: when the failed meta did reach it, every later
    commit of the handle is refused and storage stays as it is.

    The second depends on that read.  A slot that cannot be read counts as one
    that holds nothing. -/

namespace QuantyRetry

open QuantyKey QuantyPage QuantyPager QuantyPagerInv QuantySavepoint QuantyFreeList List AssocList
open Batch
open QuantyCommit QuantyCodec QuantyStorage QuantyRecover QuantyCrash

/-! ## The handle -/

/-- An open pager, the bytes that its cache holds, and the bytes of storage. -/
structure Handle where
  pager : Pager
  cache : PageId → Option Bytes
  disk : Disk

/-- The newest id stands in the slot that the next commit writes to. -/
def Ahead (p : Pager) : Prop :=
  p.committed.txid < txidInSlot p.storage ((p.committed.txid + 1) % 2)

/-- The pager as a commit sees it when the slot could not be read:
    `txid_in_slot` answers 0, as for a slot that holds nothing valid. -/
def blind (p : Pager) : Pager :=
  { p with storage := tornSlot p.storage ((p.committed.txid + 1) % 2) }

/-- What a commit works on, by whether the slot could be read. -/
def Handle.seen (h : Handle) (readable : Bool) : Pager :=
  if readable then h.pager else blind h.pager

section Checksum

variable (crc : Bytes → UInt32)

/-- `Pager::read_page`.  What it checks of a leaf or a branch is a function of
    the bytes. -/
def Handle.readPage (check : PageId → Bytes → Except Error Unit) (h : Handle) (id : PageId) :
    Except Error Bytes :=
  if id < 2 ∨ h.pager.committed.pageCount ≤ id then .error (.pageOutOfBounds id)
  else
    match h.cache id with
    | some buf => .ok buf
    | none =>
        match h.disk.readAt (id * h.pager.pageSize) h.pager.pageSize with
        | none => .error .io
        | some buf =>
            match verify crc id buf with
            | .error e => .error e
            | .ok _ =>
                match check id buf with
                | .error e => .error e
                | .ok _ => .ok buf

/-- Each byte is the one from before the writes or the one from after them. -/
structure Scathed (ws : List (Nat × Bytes)) (d d' : Disk) : Prop where
  len : d.len ≤ d'.len
  byte : ∀ i, d'.get i = d.get i ∨ d'.get i = (d.writes ws).get i

/-- **A FAILED CALL** inside the commit of a settled batch, storage holding
    `d` before the commit: what it holds after. -/
inductive Failure (now : Nat) (b : Batch) (d d' : Disk) : Prop where
  /-- up to the first sync -/
  | inPages (h : Scathed (pageWrites crc b) d d')
  /-- after it -/
  | inMeta (h : Scathed [(metaOffset b, metaBytes crc now b)] (d.writes (pageWrites crc b)) d')

/-- The handle after a commit that failed.  Of the pages that it was writing
    nothing is known; the slots hold what they decode to. -/
def Handle.after (h : Handle) (b : Batch) (d' : Disk) : Handle where
  pager :=
    { h.pager with
      storage :=
        ⟨attempt crc d' h.pager.pageSize 0, attempt crc d' h.pager.pageSize 1,
          h.pager.storage.pages.filter (fun e => !b.owns e.1)⟩ }
  cache := h.cache
  disk := d'

/-- The handle after a commit that went through: the sealed pages are cached. -/
def Handle.done (h : Handle) (now : Nat) (b : Batch) : Handle where
  pager := b.publish now
  cache id := ((AssocList.get id b.sealedPages).map (image crc b.pageSize)).or (h.cache id)
  disk := commitDisk crc now b h.disk

/-- **ONE STEP OF A HANDLE**, with whether the slot could be read where the
    step reads it. -/
inductive Step {R : Type} (check : PageId → Bytes → Except Error Unit) (rd : Reading R) :
    Handle → Bool → Handle → Prop where
  /-- a page is read and cached -/
  | read {h : Handle} {id : PageId} {buf : Bytes} (hr : h.readPage crc check id = .ok buf) :
      Step check rd h true { h with cache := Function.update h.cache id (some buf) }
  /-- the cache gives pages up -/
  | evict {h : Handle} {cache : PageId → Option Bytes}
      (he : ∀ id, cache id = none ∨ cache id = h.cache id) :
      Step check rd h true { h with cache := cache }
  /-- a commit cannot ask storage for its length -/
  | unasked {h : Handle} : Step check rd h true h
  /-- a commit is refused before it writes -/
  | refused {h : Handle} {readable : Bool} {acts : List Action} {e : Error}
      (he : (runActions acts (h.seen readable).begin).prepare = .error e) :
      Step check rd h readable h
  | failed {h : Handle} {readable : Bool} {acts : List Action} {now : Nat} {b' : Batch}
      {d' : Disk} (hc : Commissioned rd (h.seen readable) acts now b')
      (hf : Failure crc now b' h.disk d') : Step check rd h readable (h.after crc b' d')
  | done {h : Handle} {readable : Bool} {acts : List Action} {now : Nat} {b' : Batch}
      (hc : Commissioned rd (h.seen readable) acts now b') :
      Step check rd h readable (h.done crc now b')

/-- **A RUN**: steps that all meet a condition. -/
inductive Run {R : Type} (check : PageId → Bytes → Except Error Unit) (rd : Reading R)
    (cond : Handle → Bool → Prop) (h₀ : Handle) : Handle → Prop where
  | start : Run check rd cond h₀ h₀
  | step {h h' : Handle} {readable : Bool} (hr : Run check rd cond h₀ h) (hc : cond h readable)
      (hs : Step crc check rd h readable h') : Run check rd cond h₀ h'

end Checksum

/-- The slot is read where it matters: when it holds a newer meta. -/
def Sighted (h : Handle) (readable : Bool) : Prop := Ahead h.pager → readable = true

variable {crc : Bytes → UInt32} {check : PageId → Bytes → Except Error Unit}

/-! ## Bytes that no write is meant for -/

variable {i now : Nat} {x : PageId} {readable : Bool} {acts : List Action} {h' : Handle}
  {b b' : Batch} {k : Nat} {p : Pager}

section Bytes

variable {d d' : Disk} {ws : List (Nat × Bytes)} {o n : Nat} {buf : Bytes}

/-- Beside every one of the writes. -/
def Beside (ws : List (Nat × Bytes)) (o n : Nat) : Prop :=
  ∀ w ∈ ws, o + n ≤ w.1 ∨ w.1 + w.2.length ≤ o

theorem readAt_writes_out (hout : Beside ws o n) (h : d.readAt o n = some buf) :
    (d.writes ws).readAt o n = some buf := by
  induction ws generalizing d with
  | nil => exact h
  | cons w ws ih =>
      exact ih (fun w' hw' => hout w' (.tail _ hw'))
        (readAt_writeAt_out h (hout w (.head _)))

/-- Two disks that read the same somewhere hold the same bytes there. -/
theorem get_of_readAt (h : d.readAt o n = some buf) (h' : d'.readAt o n = some buf) (hi : i < n) :
    d'.get (o + i) = d.get (o + i) := by
  have hwin := (readAt_eq_some.mp h').2.trans (readAt_eq_some.mp h).2.symm
  have hget := congrArg (fun l : Bytes => l[i]?) hwin
  simpa [Disk.window, hi] using hget

theorem Scathed.readAt (hs : Scathed ws d d') (hout : Beside ws o n)
    (h : d.readAt o n = some buf) : d'.readAt o n = some buf := by
  obtain ⟨hlen, hwin⟩ := readAt_eq_some.mp h
  refine readAt_eq_some.mpr ⟨hlen.trans hs.len, ?_⟩
  rw [← hwin]
  refine Disk.window_congr fun i h1 h2 => ?_
  rcases hs.byte i with hold | hnew
  · exact hold
  · obtain ⟨k, rfl⟩ := Nat.exists_eq_add_of_le h1
    rw [hnew]
    exact get_of_readAt h (readAt_writes_out hout h) (by omega)

theorem Failure.readAt (hf : Failure crc now b d d') (hpages : Beside (pageWrites crc b) o n)
    (hmeta : Beside [(metaOffset b, metaBytes crc now b)] o n) (h : d.readAt o n = some buf) :
    d'.readAt o n = some buf := by
  cases hf with
  | inPages hs => exact hs.readAt hpages h
  | inMeta hs => exact hs.readAt hmeta (readAt_writes_out hpages h)

theorem attempt_of_readAt {ps slot : Nat} (hlong : slot * ps + ps ≤ d.len)
    (h : ∀ buf, d.readAt (slot * ps) ps = some buf → d'.readAt (slot * ps) ps = some buf) :
    attempt crc d' ps slot = attempt crc d ps slot := by
  have hread : d.readAt (slot * ps) ps = some (d.window (slot * ps) ps) :=
    readAt_eq_some.mpr ⟨hlong, rfl⟩
  rw [attempt, attempt, hread, h _ hread]

end Bytes

/-! ## What a handle keeps -/

section Serving

variable {R : Type} {rd : Reading R} {L L' : FreePages} {h : Handle}

/-- **A HANDLE THAT SERVES ITS META**: the bytes are known, the state is
    healthy, the meta stands in its own slot, and the cache holds nothing else
    for a page that the meta depends on. -/
structure Serves (crc : Bytes → UInt32) (rd : Reading R) (h : Handle)
    (L : FreePages) : Prop where
  backs : Backs crc h.pager h.disk
  healthy : Healthy rd h.pager L
  current : h.pager.storage.slot (h.pager.committed.txid % 2) = some h.pager.committed
  cached : ∀ x, Live rd h.pager x → ∀ buf, h.cache x = some buf →
    h.disk.readAt (x * h.pager.pageSize) h.pager.pageSize = some buf

@[simp] theorem seen_pageSize (h : Handle) (readable : Bool) :
    (h.seen readable).pageSize = h.pager.pageSize := by
  cases readable <;> rfl

@[simp] theorem seen_committed (h : Handle) (readable : Bool) :
    (h.seen readable).committed = h.pager.committed := by
  cases readable <;> rfl

@[simp] theorem seen_pages (h : Handle) (readable : Bool) :
    (h.seen readable).storage.pages = h.pager.storage.pages := by
  cases readable with
  | true => rfl
  | false => exact tornSlot_pages _ _

/-- Reading the slot or not, the other one is as it is. -/
theorem seen_slot (h : Handle) (readable : Bool) (hi : i < 2)
    (hne : i ≠ (h.pager.committed.txid + 1) % 2) :
    (h.seen readable).storage.slot i = h.pager.storage.slot i := by
  cases readable with
  | true => rfl
  | false =>
      show (tornSlot _ _).slot i = _
      rw [slot_tornSlot _ (Nat.mod_lt _ (by decide)) hi, if_neg hne]

theorem pageAt_seen (h : Handle) (readable : Bool) (x : PageId) :
    pageAt (h.seen readable) x = pageAt h.pager x := by
  rw [pageAt, pageAt, seen_pages]

theorem healthy_seen (hh : Healthy rd h.pager L) (readable : Bool) :
    Healthy rd (h.seen readable) L :=
  healthy_congr hh (seen_pageSize _ _) (seen_committed _ _) fun x _ => pageAt_seen h readable x

theorem live_seen (hh : Healthy rd h.pager L) (readable : Bool) :
    Live rd (h.seen readable) x ↔ Live rd h.pager x :=
  live_congr hh (seen_pageSize _ _) (seen_committed _ _) fun x _ => pageAt_seen h readable x

/-- What is known of a batch over a handle, once it is prepared. -/
structure Underway (crc : Bytes → UInt32) (rd : Reading R) (h : Handle) (now : Nat) (b' : Batch)
    (L' : FreePages) : Prop where
  pageSize : b'.pageSize = h.pager.pageSize
  pages : b'.pager.storage.pages = h.pager.storage.pages
  slots : ∀ i < 2, i ≠ (h.pager.committed.txid + 1) % 2 →
    b'.pager.storage.slot i = h.pager.storage.slot i
  base : b'.base = h.pager.committed
  healthy : Healthy rd (b'.publish now) L'
  sorted : AssocList.Sorted b'.dirty
  heirs : ∀ x, Live rd (b'.publish now) x → b'.owns x = true ∨ Live rd h.pager x
  low : ∀ e ∈ b'.sealedPages, 2 ≤ e.1
  encodable : Encodable (b'.newMeta now)
  /-- no page that the meta of the handle depends on is written -/
  untouched : ∀ x, Live rd h.pager x → b'.owns x = false

theorem Serves.underway (hs : Serves crc rd h L)
    (hc : Commissioned rd (h.seen readable) acts now b') : ∃ L', Underway crc rd h now b' L' := by
  have hh := healthy_seen hs.healthy readable
  obtain ⟨L', ho⟩ := hc.ordered hh
  have hpager := ho.pager
  refine ⟨L', ?_, ?_, ?_, ?_, ho.healthy, ho.sorted, ?_, fun e he => (ho.plain e he).1,
    ho.encodable, ?_⟩
  · rw [pageSize, hpager, seen_pageSize]
  · rw [hpager, seen_pages]
  · intro i hi hne
    rw [hpager, seen_slot h readable hi hne]
  · rw [ho.base, seen_committed]
  · intro x hx
    exact (ho.heirs x hx).imp_right (live_seen hs.healthy readable).mp
  · intro x hx
    have hout := ho.untouched hh ((live_seen hs.healthy readable).mpr hx)
    refine Bool.eq_false_iff.mpr fun hown => ?_
    obtain ⟨page, hpage⟩ := owns_iff.mp hown
    exact hout (x, ⟨_, page⟩) (mem_map.mpr ⟨_, mem_of_get hpage, rfl⟩) rfl

section Written

variable {now : Nat} {b' : Batch} {d' : Disk}

/-- A page or a slot that is not written lies beside what is. -/
theorem Underway.beside_pages (hu : Underway crc rd h now b' L') (hlow : 512 ≤ h.pager.pageSize)
    (hk : ∀ e ∈ b'.sealedPages, k ≠ e.1) :
    Beside (pageWrites crc b') (k * h.pager.pageSize) h.pager.pageSize := by
  intro w hw
  obtain ⟨e, he, rfl⟩ := mem_map.mp hw
  dsimp only
  rw [hu.pageSize, length_image (by rw [PAGE_HEADER_LEN]; omega)]
  exact page_apart (hk e he) _

theorem Underway.length_meta (hu : Underway crc rd h now b' L') :
    (metaBytes crc now b').length = h.pager.pageSize := by
  have hlen := (encode_shaped crc hu.encodable.size).length
  have hps : (b'.newMeta now).pageSize = h.pager.pageSize := hu.pageSize
  rwa [hps] at hlen

theorem Underway.offset (hu : Underway crc rd h now b' L') :
    metaOffset b' = (h.pager.committed.txid + 1) % 2 * h.pager.pageSize := by
  rw [metaOffset, hu.pageSize, hu.base]

theorem Underway.beside_meta (hu : Underway crc rd h now b' L')
    (hk : k ≠ (h.pager.committed.txid + 1) % 2) :
    Beside [(metaOffset b', metaBytes crc now b')] (k * h.pager.pageSize)
      h.pager.pageSize := by
  intro w hw
  obtain rfl := mem_singleton.mp hw
  rw [hu.offset]
  exact slot_apart hk hu.length_meta

/-- The slots come before every page. -/
theorem Underway.slot_beside (hu : Underway crc rd h now b' L') (hlow : 512 ≤ h.pager.pageSize)
    (hi : i < 2) : Beside (pageWrites crc b') (i * h.pager.pageSize) h.pager.pageSize := by
  refine hu.beside_pages hlow fun e he => ?_
  have := hu.low e he
  lia

theorem Underway.page_beside (hu : Underway crc rd h now b' L') (hlow : 512 ≤ h.pager.pageSize)
    (h2 : 2 ≤ x) (hx : b'.owns x = false) :
    Beside (pageWrites crc b') (x * h.pager.pageSize) h.pager.pageSize
      ∧ Beside [(metaOffset b', metaBytes crc now b')] (x * h.pager.pageSize)
          h.pager.pageSize := by
  have hslot := Nat.mod_lt (h.pager.committed.txid + 1) (y := 2) (by decide)
  refine ⟨hu.beside_pages hlow ?_, hu.beside_meta (by lia)⟩
  rintro e he rfl
  obtain ⟨d, hd, rfl⟩ := mem_map.mp he
  have hown : b'.owns d.1 = true := owns_iff.mpr ⟨d.2, get_of_mem hu.sorted hd⟩
  nomatch hown.symm.trans hx

/-! ### Failing -/

theorem after_slot (h : Handle) (b : Batch) (d' : Disk) (hi : i < 2) :
    (h.after crc b d').pager.storage.slot i = attempt crc d' h.pager.pageSize i := by
  obtain rfl | rfl : i = 0 ∨ i = 1 := by omega
  · rfl
  · rfl

theorem get_after (h : Handle) (b : Batch) (d' : Disk) (x : PageId) :
    AssocList.get x (h.after crc b d').pager.storage.pages
      = if b.owns x = false then AssocList.get x h.pager.storage.pages else none := by
  refine (get_filter (fun id => !b.owns id) h.pager.storage.pages x).trans ?_
  cases b.owns x <;> rfl

/-- Storage does not shrink. -/
theorem Failure.len (hf : Failure crc now b' h.disk d') : h.disk.len ≤ d'.len := by
  have hgrow : ∀ (ws : List (Nat × Bytes)) (d : Disk), d.len ≤ (d.writes ws).len := by
    intro ws
    induction ws with
    | nil => exact fun d => le_rfl
    | cons w ws ih => exact fun d => Disk.len_writeAt_ge.trans (ih _)
  cases hf with
  | inPages hs => exact hs.len
  | inMeta hs => exact (hgrow _ _).trans hs.len

/-- The pages that the kept meta depends on are as they were. -/
theorem Underway.same (hu : Underway crc rd h now b' L') (hx : Live rd h.pager x) :
    AssocList.get x (h.after crc b' d').pager.storage.pages
      = AssocList.get x h.pager.storage.pages := by
  rw [get_after, if_pos (hu.untouched x hx)]

theorem live_after (hs : Serves crc rd h L) (hu : Underway crc rd h now b' L') :
    Live rd (h.after crc b' d').pager x ↔ Live rd h.pager x := by
  have hsame : ∀ x, Live rd h.pager x →
      pageAt (h.after crc b' d').pager x = pageAt h.pager x := by
    intro x hx
    rw [pageAt, pageAt, hu.same hx]
  exact live_congr hs.healthy (show (h.after crc b' d').pager.pageSize = _ from rfl) rfl hsame

/-- Storage still reads the same for them. -/
theorem Failure.live (hf : Failure crc now b' h.disk d') (hs : Serves crc rd h L)
    (hu : Underway crc rd h now b' L') (hx : Live rd h.pager x) :
    d'.readAt (x * h.pager.pageSize) h.pager.pageSize
      = h.disk.readAt (x * h.pager.pageSize) h.pager.pageSize := by
  have h2 := (Healthy.live hs.healthy hx).1
  obtain ⟨s, hget⟩ := stored_of_live hs.healthy hx
  have hread := hs.backs.pages x s hget h2
  obtain ⟨hpages, hmeta⟩ := hu.page_beside hs.backs.low h2 (hu.untouched x hx)
  rw [hread, hf.readAt hpages hmeta hread]

/-- **A FAILED COMMIT** leaves a handle that serves the same meta. -/
theorem Serves.after (hs : Serves crc rd h L) (hu : Underway crc rd h now b' L')
    (hf : Failure crc now b' h.disk d') : Serves crc rd (h.after crc b' d') L := by
  have hlong := hs.backs.long
  refine ⟨⟨hs.backs.valid, hs.backs.size, hlong.trans hf.len, ?_, ?_⟩, ?_, ?_, ?_⟩
  · intro id s hget h2
    rw [get_after] at hget
    split at hget
    · next hown =>
      obtain ⟨hpages, hmeta⟩ := hu.page_beside hs.backs.low h2 hown
      exact hf.readAt hpages hmeta (hs.backs.pages id s hget h2)
    · nomatch hget
  · exact fun i hi => after_slot h b' d' hi
  · refine healthy_congr hs.healthy rfl rfl fun x hx => ?_
    rw [pageAt, pageAt, hu.same hx]
  · have hslot : h.pager.committed.txid % 2 < 2 := Nat.mod_lt _ (by decide)
    have hpages := hu.slot_beside hs.backs.low hslot
    refine (after_slot h b' d' hslot).trans ?_
    rw [attempt_of_readAt (hs.backs.slot_long hslot) fun buf hbuf =>
      hf.readAt hpages (hu.beside_meta (by omega)) hbuf, ← hs.backs.slots _ hslot]
    exact hs.current
  · intro x hx buf hbuf
    have hx' := (live_after hs hu).mp hx
    exact (hf.live hs hu hx').trans (hs.cached x hx' buf hbuf)

/-! ### Going through -/

theorem get_sealedPages (b : Batch) (x : PageId) :
    AssocList.get x b.sealedPages
      = (AssocList.get x b.dirty).map (fun page => ⟨b.base.txid + 1, page⟩) :=
  get_map _ _ _

theorem Underway.backs (hu : Underway crc rd h now b' L') (hb : Backs crc h.pager h.disk) :
    Backs crc (b'.publish now) (commitDisk crc now b' h.disk) := by
  have hpages := backs_pages b'.sealedPages hb hu.low
  have hshape := encode_shaped crc hu.encodable.size
  have hps : (b'.newMeta now).pageSize = h.pager.pageSize := hu.pageSize
  rw [hps] at hshape
  have hslot : (b'.base.txid + 1) % 2 < 2 := Nat.mod_lt _ (by decide)
  have hbacks : Backs crc
      { withPages h.pager b'.sealedPages with
        storage := (b'.publish now).storage, committed := b'.newMeta now } _ :=
    backs_slot hpages hslot hshape.length hps ?_ ?_ ?_
  · have hdisk : commitDisk crc now b' h.disk
        = (h.disk.writes (b'.sealedPages.map
            (fun e => (e.1 * h.pager.pageSize, image crc h.pager.pageSize e.2)))).writeAt
          ((b'.base.txid + 1) % 2 * h.pager.pageSize) (Meta.encode crc (b'.newMeta now)) := by
      rw [commitDisk, pageWrites, metaOffset, metaBytes, hu.pageSize]
    have hpub : b'.publish now
        = { withPages h.pager b'.sealedPages with
            storage := (b'.publish now).storage, committed := b'.newMeta now } := by
      show Pager.mk b'.pager.pageSize _ _ = Pager.mk h.pager.pageSize _ _
      rw [show b'.pager.pageSize = h.pager.pageSize from hu.pageSize]
      rfl
    rw [hdisk, hpub]
    exact hbacks
  · show (Storage.writeMeta _ _ _).pages = _
    rw [writeMeta_pages]
    exact writePages_congr hu.pages _
  · show (Storage.writeMeta _ ((b'.base.txid + 1) % 2) _).slot ((b'.base.txid + 1) % 2) = _
    rw [slot_writeMeta _ hslot hslot, if_pos rfl, decode_encode hu.encodable]
    rfl
  · intro j hj hne
    show (Storage.writeMeta _ ((b'.base.txid + 1) % 2) _).slot j = _
    rw [slot_writeMeta _ hslot hj, if_neg hne, slot_writePages]
    refine (hu.slots j hj ?_).trans (slot_writePages _ _ _).symm
    rw [← hu.base]
    exact hne

theorem done_slot (h : Handle) (now : Nat) (b : Batch) :
    (h.done crc now b).pager.storage.slot ((b.newMeta now).txid % 2) = some (b.newMeta now) := by
  have hslot : (b.newMeta now).txid % 2 < 2 := Nat.mod_lt _ (by decide)
  exact (slot_writeMeta _ hslot hslot _).trans (if_pos rfl)

/-- **A COMMIT THAT GOES THROUGH** leaves a handle that serves the new meta. -/
theorem Serves.done (hs : Serves crc rd h L) (hu : Underway crc rd h now b' L') :
    Serves crc rd (h.done crc now b') L' := by
  have hb := hu.backs hs.backs
  refine ⟨hb, hu.healthy, done_slot h now b', ?_⟩
  intro x hx buf hbuf
  have h2 := (Healthy.live hu.healthy hx).1
  have hbuf' : ((AssocList.get x b'.sealedPages).map (image crc b'.pageSize)).or (h.cache x)
      = some buf := hbuf
  rw [get_sealedPages] at hbuf'
  cases hdirty : AssocList.get x b'.dirty with
  | some page =>
      rw [hdirty] at hbuf'
      obtain rfl := Option.some.inj hbuf'
      refine hb.pages x ⟨b'.base.txid + 1, page⟩ ?_ h2
      rw [get_publish hu.sorted, hdirty]
      rfl
  | none =>
      rw [hdirty] at hbuf'
      have hown : b'.owns x = false := by
        rw [owns, hdirty]
        rfl
      have hx' := (hu.heirs x hx).resolve_left (by rw [hown]; exact Bool.false_ne_true)
      have hread := hs.cached x hx' buf hbuf'
      obtain ⟨hpages, hmeta⟩ := hu.page_beside hs.backs.low h2 hown
      show (commitDisk crc now b' h.disk).readAt (x * b'.pageSize) b'.pageSize = _
      rw [hu.pageSize]
      exact readAt_writeAt_out (readAt_writes_out hpages hread) (hmeta _ (.head _))

end Written

/-! ### Every step -/

/-- What a read answers is in storage. -/
theorem Serves.read (hs : Serves crc rd h L) (hx : Live rd h.pager x) {buf : Bytes}
    (hr : h.readPage crc check x = .ok buf) :
    h.disk.readAt (x * h.pager.pageSize) h.pager.pageSize = some buf := by
  rw [Handle.readPage] at hr
  split at hr
  · nomatch hr
  · split at hr
    · next hcache =>
      cases hr
      exact hs.cached x hx _ hcache
    · split at hr
      · nomatch hr
      · next hread =>
        split at hr
        · nomatch hr
        · split at hr
          · nomatch hr
          · cases hr
            exact hread

/-- A handle that has just been opened. -/
theorem serves_open {d : Disk} (hd : Durable crc rd p L d) :
    Serves crc rd ⟨p, fun _ => none, d⟩ L :=
  ⟨hd.mirrors.backs, hd.healthy, hd.mirrors.current, nofun⟩

theorem Serves.step (hs : Serves crc rd h L) (hstep : Step crc check rd h readable h') :
    ∃ L', Serves crc rd h' L' := by
  cases hstep with
  | @read id buf hr =>
      refine ⟨L, hs.backs, hs.healthy, hs.current, ?_⟩
      intro x hx buf' hbuf
      have hbuf' : Function.update h.cache id (some buf) x = some buf' := hbuf
      by_cases hid : x = id
      · subst hid
        rw [Function.update_self] at hbuf'
        obtain rfl := Option.some.inj hbuf'
        exact hs.read hx hr
      · rw [Function.update_of_ne hid] at hbuf'
        exact hs.cached x hx buf' hbuf'
  | evict he =>
      refine ⟨L, hs.backs, hs.healthy, hs.current, ?_⟩
      intro x hx buf hbuf
      rcases he x with hnone | hsame
      · nomatch hnone.symm.trans hbuf
      · exact hs.cached x hx buf (hsame.symm.trans hbuf)
  | unasked => exact ⟨L, hs⟩
  | refused _ => exact ⟨L, hs⟩
  | failed hc hf =>
      obtain ⟨L', hu⟩ := hs.underway hc
      exact ⟨L, hs.after hu hf⟩
  | done hc =>
      obtain ⟨L', hu⟩ := hs.underway hc
      exact ⟨L', hs.done hu⟩

theorem Run.serves {cond : Handle → Bool → Prop} {h₀ : Handle} (h₀s : Serves crc rd h₀ L)
    (hrun : Run crc check rd cond h₀ h) : ∃ L', Serves crc rd h L' := by
  induction hrun with
  | start => exact ⟨L, h₀s⟩
  | step _ _ hs ih =>
      obtain ⟨L', hserves⟩ := ih
      exact hserves.step hs

/-! ## A slot that is ahead -/

theorem Serves.begin (hs : Serves crc rd h L) (readable : Bool) (acts : List Action) :
    (runActions acts (h.seen readable).begin).pager = h.seen readable
      ∧ (runActions acts (h.seen readable).begin).base = h.pager.committed := by
  have hbal := runActions_balanced acts
    (balanced_begin (healthy_seen hs.healthy readable).toFreeListSound)
  obtain ⟨T, hT⟩ := hbal.now
  exact ⟨hbal.pager, hT.committed.trans (by rw [hbal.pager, seen_committed])⟩

/-- The race check, for a batch on the handle. -/
theorem Serves.raced (hs : Serves crc rd h L) (acts : List Action) (ha : Ahead h.pager) :
    (runActions acts h.pager.begin).prepare
      = .error (.writerRaced h.pager.committed.txid
          (txidInSlot h.pager.storage ((h.pager.committed.txid + 1) % 2))) := by
  obtain ⟨hpager, hbase⟩ := hs.begin true acts
  have hpager' : (runActions acts h.pager.begin).pager = h.pager := hpager
  have hbase' : (runActions acts h.pager.begin).base = h.pager.committed := hbase
  rw [prepare, hbase', hpager']
  exact if_pos ha

/-- Only a slot that is ahead has a lawful batch refused as raced. -/
theorem Serves.raced_iff (hs : Serves crc rd h L) (hl : Lawful rd (runActions acts h.pager.begin)) :
    (∃ found, (runActions acts h.pager.begin).prepare
      = .error (.writerRaced h.pager.committed.txid found)) ↔ Ahead h.pager := by
  refine ⟨?_, fun ha => ⟨_, hs.raced acts ha⟩⟩
  rintro ⟨found, hprep⟩
  by_contra hahead
  obtain ⟨hpager, hbase⟩ := hs.begin true acts
  have hpager' : (runActions acts h.pager.begin).pager = h.pager := hpager
  have hbase' : (runActions acts h.pager.begin).base = h.pager.committed := hbase
  have hbal := runActions_balanced acts (balanced_begin hs.healthy.toFreeListSound)
  obtain ⟨b', -, hsettle, -⟩ := settle_outcome hs.healthy hbal hl 0
  have hold : ¬ h.pager.committed.txid
      < txidInSlot h.pager.storage ((h.pager.committed.txid + 1) % 2) := hahead
  rw [prepare, hbase', hpager', if_neg hold, hsettle] at hprep
  dsimp only at hprep
  split at hprep
  · cases hprep
  · cases hprep

/-- A commit that gets to write does not find the slot ahead, when it reads
    it where it matters. -/
theorem Serves.not_ahead (hs : Serves crc rd h L) (hsight : Sighted h readable)
    (hc : Commissioned rd (h.seen readable) acts now b') : ¬ Ahead h.pager := by
  intro ha
  obtain rfl := hsight ha
  nomatch (hs.raced acts ha).symm.trans hc.prepared

theorem slot_of_not_ahead (ha : ¬ Ahead p) {m : Meta}
    (hm : p.storage.slot ((p.committed.txid + 1) % 2) = some m) : m.txid ≤ p.committed.txid := by
  rw [Ahead, txidInSlot, hm] at ha
  exact not_lt.mp ha

/-- **NOTHING IS WRITTEN ANY MORE** once the slot is ahead. -/
theorem Serves.stuck_step (hs : Serves crc rd h L) (ha : Ahead h.pager)
    (hsight : Sighted h readable) (hstep : Step crc check rd h readable h') :
    h'.pager = h.pager ∧ h'.disk = h.disk := by
  cases hstep with
  | read _ => exact ⟨rfl, rfl⟩
  | evict _ => exact ⟨rfl, rfl⟩
  | unasked => exact ⟨rfl, rfl⟩
  | refused _ => exact ⟨rfl, rfl⟩
  | failed hc _ => exact absurd ha (hs.not_ahead hsight hc)
  | done hc => exact absurd ha (hs.not_ahead hsight hc)

theorem Serves.stuck (hs : Serves crc rd h L) (ha : Ahead h.pager)
    (hrun : Run crc check rd Sighted h h') : h'.pager = h.pager ∧ h'.disk = h.disk := by
  induction hrun with
  | start => exact ⟨rfl, rfl⟩
  | step hr hsight hstep ih =>
      obtain ⟨T, hserves⟩ := hr.serves hs
      obtain ⟨hpager, hdisk⟩ := hserves.stuck_step (ih.1.symm ▸ ha) hsight hstep
      exact ⟨hpager.trans ih.1, hdisk.trans ih.2⟩

section Slot

variable {now : Nat} {b' : Batch} {d' : Disk}

theorem after_slot_next (h : Handle) (b : Batch) (d' : Disk) :
    (h.after crc b d').pager.storage.slot ((h.pager.committed.txid + 1) % 2)
      = attempt crc d' h.pager.pageSize ((h.pager.committed.txid + 1) % 2) :=
  after_slot h b d' (Nat.mod_lt _ (by decide))

/-- **WHERE A SLOT GETS AHEAD**: only a failure after the first sync does it. -/
theorem Serves.ahead_after (hs : Serves crc rd h L) (hu : Underway crc rd h now b' L')
    (hf : Failure crc now b' h.disk d') (hahead : ¬ Ahead h.pager)
    (hafter : Ahead (h.after crc b' d').pager) :
    Scathed [(metaOffset b', metaBytes crc now b')] (h.disk.writes (pageWrites crc b')) d' := by
  cases hf with
  | inMeta hm => exact hm
  | inPages hp =>
      refine absurd ?_ hahead
      have hslot : (h.pager.committed.txid + 1) % 2 < 2 := Nat.mod_lt _ (by decide)
      have hsame : (h.after crc b' d').pager.storage.slot ((h.pager.committed.txid + 1) % 2)
          = h.pager.storage.slot ((h.pager.committed.txid + 1) % 2) := by
        rw [after_slot_next, attempt_of_readAt (hs.backs.slot_long hslot) fun buf hbuf =>
          hp.readAt (hu.slot_beside hs.backs.low hslot) hbuf, ← hs.backs.slots _ hslot]
      have hafter' : h.pager.committed.txid < txidInSlot
          (h.after crc b' d').pager.storage ((h.pager.committed.txid + 1) % 2) := hafter
      rwa [txidInSlot, hsame] at hafter'

/-- A meta that arrived whole puts the slot ahead. -/
theorem Underway.arrived (hu : Underway crc rd h now b' L')
    (hread : d'.readAt (metaOffset b') b'.pageSize = some (metaBytes crc now b')) :
    (h.after crc b' d').pager.storage.slot ((h.pager.committed.txid + 1) % 2)
        = some (b'.newMeta now)
      ∧ Ahead (h.after crc b' d').pager := by
  have hslot : (h.after crc b' d').pager.storage.slot ((h.pager.committed.txid + 1) % 2)
      = some (b'.newMeta now) := by
    rw [after_slot_next, attempt, ← hu.offset, ← hu.pageSize, hread, metaBytes]
    simp only [decode_encode hu.encodable]
    rfl
  refine ⟨hslot, ?_⟩
  show h.pager.committed.txid < txidInSlot (h.after crc b' d').pager.storage
    ((h.pager.committed.txid + 1) % 2)
  rw [txidInSlot, hslot, ← hu.base]
  exact Nat.lt_succ_self _

/-- Nothing that a read of the kept state looks at has changed. -/
theorem Failure.readPage (hf : Failure crc now b' h.disk d') (hs : Serves crc rd h L)
    (hu : Underway crc rd h now b' L') (hx : Live rd h.pager x) :
    (h.after crc b' d').readPage crc check x = h.readPage crc check x := by
  have hread : (h.after crc b' d').disk.readAt (x * (h.after crc b' d').pager.pageSize)
      (h.after crc b' d').pager.pageSize
        = h.disk.readAt (x * h.pager.pageSize) h.pager.pageSize := hf.live hs hu hx
  rw [Handle.readPage, Handle.readPage, hread]
  rfl

end Slot

/-- **A COMMIT THAT FAILS LOSES NOTHING**, in every run in which a slot that is
    ahead can be read.  In every state of the run, the handle answers from its
    meta.  A commit that gets to write is built on that meta and overwrites no
    meta with its own id.  When it fails, the meta and all that it depends on
    are as before, for storage and for reads; the slot gets ahead only by a
    failure after the first sync, and does when the meta arrived whole.  Once
    it is ahead every commit is refused, and nothing is written any more. -/
theorem failed_commit_loses_nothing {p₀ : Pager} {d₀ : Disk} (h₀ : Durable crc rd p₀ L d₀)
    (hrun : Run crc check rd Sighted ⟨p₀, fun _ => none, d₀⟩ h) :
    h.pager.storage.slot (h.pager.committed.txid % 2) = some h.pager.committed
      ∧ (∀ x, Live rd h.pager x → ∃ s, AssocList.get x h.pager.storage.pages = some s
          ∧ h.disk.readAt (x * h.pager.pageSize) h.pager.pageSize
              = some (image crc h.pager.pageSize s)
          ∧ ∀ buf, h.readPage crc check x = .ok buf → buf = image crc h.pager.pageSize s)
      ∧ (∀ readable acts now b', Sighted h readable →
          Commissioned rd (h.seen readable) acts now b' →
          b'.base = h.pager.committed
            ∧ (∀ m, h.pager.storage.slot ((b'.newMeta now).txid % 2) = some m →
                m.txid < (b'.newMeta now).txid)
            ∧ ∀ d', Failure crc now b' h.disk d' →
                (h.after crc b' d').pager.committed = h.pager.committed
                  ∧ (∀ x, Live rd (h.after crc b' d').pager x ↔ Live rd h.pager x)
                  ∧ (∀ x, Live rd h.pager x →
                      d'.readAt (x * h.pager.pageSize) h.pager.pageSize
                          = h.disk.readAt (x * h.pager.pageSize) h.pager.pageSize
                        ∧ (h.after crc b' d').readPage crc check x = h.readPage crc check x)
                  ∧ (Ahead (h.after crc b' d').pager →
                      Scathed [(metaOffset b', metaBytes crc now b')]
                        (h.disk.writes (pageWrites crc b')) d')
                  ∧ (d'.readAt (metaOffset b') b'.pageSize = some (metaBytes crc now b') →
                      Ahead (h.after crc b' d').pager))
      ∧ (∀ acts, Lawful rd (runActions acts h.pager.begin) →
          ((∃ found, (runActions acts h.pager.begin).prepare
            = .error (.writerRaced h.pager.committed.txid found)) ↔ Ahead h.pager))
      ∧ (Ahead h.pager → ∀ h', Run crc check rd Sighted h h' →
          h'.pager = h.pager ∧ h'.disk = h.disk) := by
  obtain ⟨T, hs⟩ := hrun.serves (serves_open h₀)
  refine ⟨hs.current, ?_, ?_, fun acts hl => hs.raced_iff hl, fun ha h' hr => hs.stuck ha hr⟩
  · intro x hx
    obtain ⟨s, hget⟩ := stored_of_live hs.healthy hx
    have hread := hs.backs.pages x s hget (Healthy.live hs.healthy hx).1
    refine ⟨s, hget, hread, fun buf hbuf => ?_⟩
    exact Option.some.inj ((hs.read hx hbuf).symm.trans hread)
  · intro readable acts now b' hsight hc
    obtain ⟨T', hu⟩ := hs.underway hc
    have hahead := hs.not_ahead hsight hc
    have htxid : (b'.newMeta now).txid = h.pager.committed.txid + 1 :=
      congrArg (fun m : Meta => m.txid + 1) hu.base
    refine ⟨hu.base, ?_, fun d' hf => ⟨rfl, fun x => live_after hs hu, fun x hx =>
      ⟨hf.live hs hu hx, hf.readPage hs hu hx⟩, hs.ahead_after hu hf hahead,
      fun hread => (hu.arrived hread).2⟩⟩
    intro m hm
    rw [htxid] at hm ⊢
    exact Nat.lt_succ_of_le (slot_of_not_ahead hahead hm)

end Serving

/-! ## A slot that cannot be read -/

/-- All of it may have arrived. -/
theorem scathed_all (ws : List (Nat × Bytes)) (d : Disk) : Scathed ws d (d.writes ws) := by
  refine ⟨?_, fun i => .inr rfl⟩
  induction ws generalizing d with
  | nil => exact le_rfl
  | cons w ws ih => exact Disk.len_writeAt_ge.trans (ih _)

theorem failure_all (now : Nat) (b : Batch) (d : Disk) :
    Failure crc now b d (commitDisk crc now b d) :=
  Failure.inMeta (scathed_all [(metaOffset b, metaBytes crc now b)] _)

theorem readAt_commitDisk (hps : PAGE_HEADER_LEN ≤ b.pageSize) (d : Disk) :
    (commitDisk crc now b d).readAt (metaOffset b) b.pageSize = some (metaBytes crc now b) := by
  have hlen : (metaBytes crc now b).length = b.pageSize := length_encode hps
  rw [← hlen]
  exact Disk.readAt_writeAt_same _ _ _

section Lost

/-- Nothing here depends on the checksum, or on what a page is checked for. -/
def noChecksum : Bytes → UInt32 := fun _ => 0

def noCheck : PageId → Bytes → Except Error Unit := fun _ _ => .ok ()

/-- A handle that has just made its file. -/
def newHandle : Handle := ⟨Pager.initial 512 0, fun _ => none, createDisk noChecksum 512 0⟩

def firstBatch : Batch := preparedBatch (Pager.initial 512 0) (leafActions 2)

/-- Its first commit, at time 0, fails in the last sync; everything arrived. -/
def syncFailed : Handle :=
  newHandle.after noChecksum firstBatch (commitDisk noChecksum 0 firstBatch newHandle.disk)

theorem durable_newHandle :
    Durable noChecksum everything newHandle.pager [] newHandle.disk :=
  durable_create noChecksum (by decide) (by decide)

theorem step_syncFailed : Step noChecksum noCheck everything newHandle true syncFailed :=
  Step.failed first_commissioned (failure_all 0 firstBatch newHandle.disk)

/-- The handle whose last sync failed, its meta having arrived, is refused from
    then on. -/
theorem failed_commit_loses_nothing_arrived :
    Ahead syncFailed.pager
      ∧ ∀ h', Run noChecksum noCheck everything Sighted syncFailed h' →
        h'.pager = syncFailed.pager ∧ h'.disk = syncFailed.disk := by
  have hstart := failed_commit_loses_nothing durable_newHandle
    (Run.start : Run noChecksum noCheck everything Sighted newHandle newHandle)
  have hcommit := hstart.2.2.1 true _ 0 firstBatch (fun _ => rfl) first_commissioned
  have hahead : Ahead syncFailed.pager :=
    (hcommit.2.2 _ (failure_all 0 firstBatch newHandle.disk)).2.2.2.2
      (readAt_commitDisk (by decide) _)
  have hrun : Run noChecksum noCheck everything Sighted newHandle syncFailed :=
    Run.step Run.start (fun _ => rfl) step_syncFailed
  exact ⟨hahead, (failed_commit_loses_nothing durable_newHandle hrun).2.2.2.2 hahead⟩

/-- Another transaction: a leaf with another key, which becomes the catalog. -/
def otherActions : List Action :=
  [.allocate .leaf, .pageMut 2 (fun _ => .node (.leaf [([2], .inline [])])), .setCatalogRoot 2]

/-- Its commit cannot read the slot. -/
def blindBatch : Batch := preparedBatch (syncFailed.seen false) otherActions

theorem blind_commissioned :
    Commissioned everything (syncFailed.seen false) otherActions 0 blindBatch :=
  leaf_commissioned rfl rfl rfl rfl (by decide) (by decide) (by decide) (by decide)

/-- **A META THAT MAY BE DURABLE IS OVERWRITTEN**: the last sync of a commit
    fails and its meta stands in the slot.  The next commit cannot read the
    slot, takes it for empty, and puts another meta of the same id there. -/
theorem unread_slot_is_overwritten :
    Step noChecksum noCheck everything newHandle true syncFailed
      ∧ Step noChecksum noCheck everything syncFailed false
          (syncFailed.done noChecksum 0 blindBatch)
      ∧ ∃ m m', syncFailed.pager.storage.slot 1 = some m
          ∧ attempt noChecksum syncFailed.disk 512 1 = some m
          ∧ (syncFailed.done noChecksum 0 blindBatch).pager.storage.slot 1 = some m'
          ∧ m'.txid = m.txid ∧ m' ≠ m := by
  have hs : Serves noChecksum everything newHandle [] := serves_open durable_newHandle
  have hc : Commissioned everything (newHandle.seen true) (leafActions 2) 0 firstBatch :=
    first_commissioned
  obtain ⟨L', hu⟩ := hs.underway hc
  have hslot : syncFailed.pager.storage.slot 1 = some (firstBatch.newMeta 0) :=
    (hu.arrived (readAt_commitDisk (by decide) _)).1
  have hdisk : syncFailed.pager.storage.slot 1 = attempt noChecksum syncFailed.disk 512 1 :=
    after_slot newHandle firstBatch (commitDisk noChecksum 0 firstBatch newHandle.disk)
      Nat.one_lt_two
  have hother : (syncFailed.done noChecksum 0 blindBatch).pager.storage.slot 1
      = some (blindBatch.newMeta 0) := by
    have hone : (blindBatch.newMeta 0).txid % 2 = 1 := by decide
    exact hone ▸ done_slot syncFailed 0 blindBatch
  have htxid : (blindBatch.newMeta 0).txid = (firstBatch.newMeta 0).txid := by decide
  have hcatalog : (blindBatch.newMeta 0).catalogRoot ≠ (firstBatch.newMeta 0).catalogRoot := by
    decide
  exact ⟨step_syncFailed, Step.done blind_commissioned, _, _, hslot, hdisk.symm.trans hslot,
    hother, htxid, fun heq => hcatalog (congrArg Meta.catalogRoot heq)⟩

end Lost

end QuantyRetry
